import BankFinder.SkipPrune

/-!
# The pruned map between calls

A remnant misses every skip range, also those which were cut out before it was
made, so a second call of `board_prune_vm_map` finds nothing to cut. Skip ranges
end before their upper bound while the memory tests read the word at `end` of a
segment: a left cut ends in the first word of the range it was made for.
-/

namespace BankFinder.PrunedMap
open BadmemLog SegmentCut SkipPrune

section
variable {B : Type} {m : ℕ} {skips : List SkipRange} {vmMap : List (VmMapEntry B)}

theorem misses_of_mem_entryPieces {entry piece : VmMapEntry B}
    (h : piece ∈ entryPieces skips entry) :
    ∀ sk ∈ skips, Misses (skipSeg sk) piece.remnant.seg := by
  intro sk hsk
  obtain ⟨w, hw, rfl⟩ := List.mem_map.mp h
  have hseg : w.seg ∈ cutRun workSize (skips.map skipSeg) [entry.remnant.seg] := by
    have hrun := map_survivors skips [entry.remnant]
    rw [List.map_singleton] at hrun
    rw [← hrun]
    exact List.mem_map_of_mem hw
  exact misses_of_mem_cutRun hseg _ (List.mem_map_of_mem hsk)

theorem overlapped_of_misses {w : Remnant} (h : ∀ sk ∈ skips, Misses (skipSeg sk) w.seg) :
    overlapped skips [w] = false := by
  induction skips with
  | nil => rfl
  | cons sk skips ih =>
      rw [List.forall_mem_cons] at h
      have hkeep : ([w].flatMap (pieces sk)).take workSize = [w] := by
        rw [List.flatMap_singleton, pieces, if_pos ((misses_iff sk w).mpr h.1)]
        rfl
      unfold overlapped
      rw [hkeep, ih h.2]
      simp [h.1]

theorem not_overruns_of_misses {s : Seg ℕ} {sks : List (Seg ℕ)} (h : ∀ sk ∈ sks, Misses sk s) :
    ¬Overruns workSize sks [s] := by
  induction sks with
  | nil => exact id
  | cons sk sks ih =>
      rw [List.forall_mem_cons] at h
      have hkeep : (cutAll sk [s]).take workSize = [s] := by
        unfold cutAll
        rw [List.flatMap_singleton, cut, if_pos h.1]
        rfl
      unfold Overruns
      rw [hkeep, not_or]
      refine ⟨?_, ih h.2⟩
      rw [blocked_cons, not_or]
      exact ⟨fun hfull => absurd hfull.2 (by decide), not_blocked_nil _ _ _⟩

/-- What a call which stays in its arrays leaves. -/
theorem boardPruneVmMap_ok {result : List (VmMapEntry B)} (hsize : vmMap.length ≤ m)
    (h : boardPruneVmMap m skips vmMap = .ok result) :
    (∀ entry ∈ vmMap, ¬EntryOverruns skips entry) ∧
      result = (vmMap.flatMap (entryPieces skips)).take m := by
  have hfits : ∀ entry ∈ vmMap, ¬EntryOverruns skips entry := by
    intro entry hentry hover
    rw [boardPruneVmMap_overrun m ⟨entry, hentry, hover⟩] at h
    cases h
  rw [boardPruneVmMap_eq hsize hfits] at h
  exact ⟨hfits, (Except.ok.inj h).symm⟩

theorem misses_of_mem_pruned {piece : VmMapEntry B}
    (h : piece ∈ (vmMap.flatMap (entryPieces skips)).take m) :
    ∀ sk ∈ skips, Misses (skipSeg sk) piece.remnant.seg := by
  obtain ⟨entry, -, hpiece⟩ := List.mem_flatMap.mp (List.mem_of_mem_take h)
  exact misses_of_mem_entryPieces hpiece

/-- A second call with the same skip ranges finds no overlap and writes nothing,
whatever the first one dropped. -/
theorem boardPruneVmMap_again {result : List (VmMapEntry B)} (hsize : vmMap.length ≤ m)
    (h : boardPruneVmMap m skips vmMap = .ok result) :
    boardPruneVmMap m skips result = .ok result ∧
      ∃ scratch, rebuild m skips result = .ok ⟨scratch, false⟩ := by
  obtain ⟨-, hresult⟩ := boardPruneVmMap_ok hsize h
  have hmisses : ∀ piece ∈ result, ∀ sk ∈ skips, Misses (skipSeg sk) piece.remnant.seg := by
    rw [hresult]
    intro piece hpiece
    exact misses_of_mem_pruned hpiece
  have hfits : ∀ piece ∈ result, ¬EntryOverruns skips piece := by
    intro piece hpiece
    apply not_overruns_of_misses
    intro s hs
    obtain ⟨sk, hsk, rfl⟩ := List.mem_map.mp hs
    exact hmisses piece hpiece sk hsk
  have hnone : ∀ piece ∈ result, overlapped skips [piece.remnant] = false := by
    intro piece hpiece
    exact overlapped_of_misses (hmisses piece hpiece)
  have hlength : result.length ≤ m := by
    rw [hresult]
    exact List.length_take_le _ _
  constructor
  · rw [boardPruneVmMap_eq hlength hfits, flatMap_entryPieces hnone,
      List.take_of_length_le hlength]
  · have hany : (result.any fun piece => overlapped skips [piece.remnant]) = false := by
      simpa using hnone
    refine ⟨(result.flatMap (entryPieces skips)).take (m * 2), ?_⟩
    rw [rebuild_eq m hfits, hany]

/-- A map with room for one entry: the second piece is lost, and the map stays as it is. -/
theorem boardPruneVmMap_again_truncated :
    boardPruneVmMap 1 [⟨0x100000, 0x200000, 1⟩] [(⟨(), 0, 0x10000000⟩ : VmMapEntry Unit)] =
        .ok [⟨(), 0, 0x100000⟩] ∧
      boardPruneVmMap 1 [⟨0x100000, 0x200000, 1⟩] [(⟨(), 0, 0x100000⟩ : VmMapEntry Unit)] =
        .ok [⟨(), 0, 0x100000⟩] := by
  have hcall : boardPruneVmMap 1 [⟨0x100000, 0x200000, 1⟩]
      [(⟨(), 0, 0x10000000⟩ : VmMapEntry Unit)] = .ok [⟨(), 0, 0x100000⟩] := rfl
  exact ⟨hcall, (boardPruneVmMap_again (by decide) hcall).1⟩

/-- `x` is the address of a word which the tests access in the segment; `end` is the last one. -/
def Tested (entry : VmMapEntry B) (x : UInt64) : Prop :=
  8 ∣ x.toNat ∧ entry.start ≤ x ∧ x ≤ entry.stop

/-- No word which the tests access lies in a skip range. -/
def NeverTouches (skips : List SkipRange) (result : List (VmMapEntry B)) : Prop :=
  ∀ entry ∈ result, ∀ x, Tested entry x → ¬InSkips skips x

/-- `x` is in a piece of the entry for which `vm_map` has no room behind the pieces of
the entries before it. -/
def MapDrops (m : ℕ) (skips : List SkipRange) (before : List (VmMapEntry B))
    (entry : VmMapEntry B) (x : UInt64) : Prop :=
  InMap ((entryPieces skips entry).drop (m - (before.flatMap (entryPieces skips)).length)) x

/-- A range which starts at a word cuts the entry from the left: the address below its
start is in the entry, in no skip range, and not dropped for lack of room. -/
def LeftCut (m : ℕ) (skips : List SkipRange) (before : List (VmMapEntry B))
    (entry : VmMapEntry B) : Prop :=
  ∃ sk ∈ skips, 8 ∣ sk.start.toNat ∧ entry.start < sk.start ∧ sk.start ≤ entry.stop ∧
    ¬InSkips skips (sk.start - 1) ∧ ¬EntryDrops skips entry (sk.start - 1) ∧
    ¬MapDrops m skips before entry (sk.start - 1)

/-- The entry is a single word which starts a range and lies inside none, and there is
room for it. -/
def PointAtSkip (m : ℕ) (skips : List SkipRange) (before : List (VmMapEntry B))
    (entry : VmMapEntry B) : Prop :=
  entry.start = entry.stop ∧ (∃ sk ∈ skips, 8 ∣ sk.start.toNat ∧ sk.start = entry.start) ∧
    (∀ sk ∈ skips, sk.endPa ≤ entry.start ∨ entry.start ≤ sk.start) ∧
    (before.flatMap (entryPieces skips)).length < m

theorem mem_take_flatMap {A C : Type} (f : A → List C) (xs : List A) (m : ℕ) (y : C) :
    y ∈ (xs.flatMap f).take m ↔ ∃ before x after, xs = before ++ x :: after ∧
      y ∈ (f x).take (m - (before.flatMap f).length) := by
  induction xs generalizing m with
  | nil =>
      constructor
      · intro hy
        rw [List.flatMap_nil, List.take_nil] at hy
        exact absurd hy List.not_mem_nil
      · rintro ⟨before, x, after, heq, -⟩
        exact absurd heq.symm (by simp)
  | cons x xs ih =>
      rw [List.flatMap_cons, List.take_append, List.mem_append, ih]
      constructor
      · rintro (hy | ⟨before, z, after, heq, hy⟩)
        · exact ⟨[], x, xs, rfl, hy⟩
        · refine ⟨x :: before, z, after, by rw [heq]; rfl, ?_⟩
          rwa [List.flatMap_cons, List.length_append, Nat.sub_add_eq]
      · rintro ⟨before, z, after, heq, hy⟩
        cases before with
        | nil =>
            obtain ⟨rfl, -⟩ := List.cons.inj heq
            exact Or.inl hy
        | cons w before =>
            obtain ⟨rfl, hrest⟩ := List.cons.inj heq
            rw [List.flatMap_cons, List.length_append, Nat.sub_add_eq] at hy
            exact Or.inr ⟨before, z, after, hrest, hy⟩

/-- Since a remnant misses every skip range, the word at its end is the only one it can touch. -/
theorem touches_iff {piece : VmMapEntry B} (hproper : ProperSkips skips)
    (hmisses : ∀ sk ∈ skips, Misses (skipSeg sk) piece.remnant.seg) :
    (∃ x, Tested piece x ∧ InSkips skips x) ↔
      piece.start ≤ piece.stop ∧ ∃ sk ∈ skips, 8 ∣ sk.start.toNat ∧ sk.start = piece.stop := by
  constructor
  · rintro ⟨x, ⟨hword, hlo, hhi⟩, sk, hsk, hfrom, hto⟩
    have hstop : x = piece.stop := by
      have hmiss : sk.endPa.toNat ≤ piece.start.toNat ∨ sk.start.toNat ≥ piece.stop.toNat :=
        hmisses sk hsk
      rw [UInt64.le_iff_toNat_le] at hlo hhi hfrom
      rw [UInt64.lt_iff_toNat_lt] at hto
      apply UInt64.toNat_inj.mp
      omega
    have hstart : sk.start = piece.stop := by
      have hmiss : sk.endPa.toNat ≤ piece.start.toNat ∨ sk.start.toNat ≥ piece.stop.toNat :=
        hmisses sk hsk
      subst hstop
      rw [UInt64.le_iff_toNat_le] at hlo hfrom
      rw [UInt64.lt_iff_toNat_lt] at hto
      apply UInt64.toNat_inj.mp
      omega
    refine ⟨UInt64.le_trans hlo hhi, sk, hsk, ?_, hstart⟩
    rwa [hstart, ← hstop]
  · rintro ⟨hle, sk, hsk, hword, hstart⟩
    refine ⟨piece.stop, ⟨hstart ▸ hword, hle, UInt64.le_refl _⟩, sk, hsk, ?_, ?_⟩
    · rw [hstart]
      exact UInt64.le_refl _
    · rw [← hstart]
      exact hproper sk hsk

theorem map_entryPieces (skips : List SkipRange) (entry : VmMapEntry B) :
    (entryPieces skips entry).map (fun piece => piece.remnant.seg) =
      cutRun workSize (skips.map skipSeg) [entry.remnant.seg] := by
  have hrun := map_survivors skips [entry.remnant]
  rw [List.map_singleton] at hrun
  unfold entryPieces
  rw [List.map_map, ← hrun]
  rfl

theorem inMap_iff (vmMap : List (VmMapEntry B)) (x : UInt64) :
    InMap vmMap x ↔ Covered (vmMap.map fun entry => entry.remnant.seg) x.toNat := by
  unfold InMap Covered
  simp only [List.mem_map, exists_exists_and_eq_and, holds_iff]

/-- The pieces of an entry which find room and those which do not have no address in common. -/
theorem not_mapDrops {before : List (VmMapEntry B)} {entry : VmMapEntry B} {x : UInt64}
    (hproper : ProperSkips skips)
    (h : InMap ((entryPieces skips entry).take
      (m - (before.flatMap (entryPieces skips)).length)) x) :
    ¬MapDrops m skips before entry x := by
  intro hdrop
  have hpieces : (cutRun workSize (skips.map skipSeg) [entry.remnant.seg]).Pairwise Apart :=
    pairwise_cutRun (proper_skipSeg hproper) (List.pairwise_singleton Apart entry.remnant.seg)
  unfold MapDrops at hdrop
  rw [inMap_iff, List.map_take, map_entryPieces] at h
  rw [inMap_iff, List.map_drop, map_entryPieces] at hdrop
  obtain ⟨p, hp, hxp⟩ := h
  obtain ⟨q, hq, hxq⟩ := hdrop
  rw [← List.take_append_drop (m - (before.flatMap (entryPieces skips)).length)
    (cutRun workSize _ _), List.pairwise_append] at hpieces
  exact hpieces.2.2 p hp q hq _ hxp hxq

theorem inMap_take_iff (hproper : ProperSkips skips) (before : List (VmMapEntry B))
    (entry : VmMapEntry B) (x : UInt64) :
    InMap ((entryPieces skips entry).take (m - (before.flatMap (entryPieces skips)).length)) x ↔
      entry.Holds x ∧ ¬InSkips skips x ∧ ¬EntryDrops skips entry x ∧
        ¬MapDrops m skips before entry x := by
  constructor
  · intro hkept
    have hsome : InMap (entryPieces skips entry) x := by
      obtain ⟨piece, hpiece, hx⟩ := hkept
      exact ⟨piece, List.mem_of_mem_take hpiece, hx⟩
    obtain ⟨⟨hholds, hskips⟩, hdrops⟩ := (inMap_entryPieces hproper entry x).mp hsome
    exact ⟨hholds, hskips, hdrops, not_mapDrops hproper hkept⟩
  · rintro ⟨hholds, hskips, hdrops, hroom⟩
    obtain ⟨piece, hpiece, hx⟩ :=
      (inMap_entryPieces hproper entry x).mpr ⟨⟨hholds, hskips⟩, hdrops⟩
    rw [← List.take_append_drop (m - (before.flatMap (entryPieces skips)).length)
      (entryPieces skips entry), List.mem_append] at hpiece
    rcases hpiece with hpiece | hpiece
    · exact ⟨piece, hpiece, hx⟩
    · exact absurd ⟨piece, hpiece, hx⟩ hroom

theorem toNat_pred {x y : UInt64} (h : y < x) : (x - 1).toNat = x.toNat - 1 := by
  rw [UInt64.lt_iff_toNat_lt] at h
  rw [UInt64.toNat_sub_of_le]
  · rfl
  · rw [UInt64.le_iff_toNat_le]
    change 1 ≤ x.toNat
    omega

theorem point_piece {entry piece : VmMapEntry B} (h : piece ∈ entryPieces skips entry)
    (hpoint : piece.start = piece.stop) :
    piece.start = entry.start ∧ piece.stop = entry.stop := by
  have hseg : piece.remnant.seg ∈ cutRun workSize (skips.map skipSeg) [entry.remnant.seg] := by
    rw [← map_entryPieces]
    exact List.mem_map_of_mem h
  rcases mem_or_lt_of_mem_cutRun hseg with hsame | hlt
  · rw [List.mem_singleton] at hsame
    obtain ⟨hlo, hhi⟩ := Seg.mk.inj hsame
    exact ⟨UInt64.toNat_inj.mp hlo, UInt64.toNat_inj.mp hhi⟩
  · have hne : piece.start.toNat < piece.stop.toNat := hlt
    rw [hpoint] at hne
    exact absurd hne (Nat.lt_irrefl _)

theorem entryPieces_of_misses {entry : VmMapEntry B}
    (h : ∀ sk ∈ skips, Misses (skipSeg sk) entry.remnant.seg) :
    entryPieces skips entry = [entry] := by
  unfold entryPieces
  rw [survivors_of_not_overlapped (overlapped_of_misses h)]
  rfl

/-- A tested word of a skip range is at the start of the piece, which comes from a left cut or
is a word which stood alone. -/
theorem cut_of_touch (hproper : ProperSkips skips) {before : List (VmMapEntry B)}
    {entry piece : VmMapEntry B} (hpiece : piece ∈ (entryPieces skips entry).take
      (m - (before.flatMap (entryPieces skips)).length))
    (htouch : ∃ x, Tested piece x ∧ InSkips skips x) :
    LeftCut m skips before entry ∨ PointAtSkip m skips before entry := by
  have hin := List.mem_of_mem_take hpiece
  have hmisses := misses_of_mem_entryPieces hin
  obtain ⟨hle, sk, hsk, hword, hstart⟩ := (touches_iff hproper hmisses).mp htouch
  obtain ⟨-, hlo, hhi⟩ := entryPieces_copied hin
  rcases UInt64.lt_or_eq_of_le hle with hlt | hpoint
  · have hpred := toNat_pred (hstart ▸ hlt : piece.start < sk.start)
    have hholds : piece.Holds (sk.start - 1) := by
      rw [UInt64.lt_iff_toNat_lt] at hlt
      unfold VmMapEntry.Holds
      rw [UInt64.le_iff_toNat_le, UInt64.lt_iff_toNat_lt, hpred, hstart]
      omega
    obtain ⟨-, hskips, hdrops, hroom⟩ :=
      (inMap_take_iff hproper before entry _).mp ⟨piece, hpiece, hholds⟩
    refine Or.inl ⟨sk, hsk, hword, ?_, hstart ▸ hhi, hskips, hdrops, hroom⟩
    exact UInt64.lt_of_le_of_lt hlo (hstart ▸ hlt)
  · obtain ⟨hsame, hsame'⟩ := point_piece hin hpoint
    refine Or.inr ⟨by rw [← hsame, ← hsame', hpoint], ⟨sk, hsk, hword, ?_⟩, ?_, ?_⟩
    · rw [hstart, ← hpoint, hsame]
    · intro sk' hsk'
      have hmiss := (misses_iff sk' piece.remnant).mpr (hmisses sk' hsk')
      rw [← hsame]
      exact hmiss.imp_right fun h => hpoint ▸ h
    · have hlength := List.length_pos_of_mem hpiece
      rw [List.length_take] at hlength
      omega

theorem touch_of_leftCut (hproper : ProperSkips skips) {before : List (VmMapEntry B)}
    {entry : VmMapEntry B} (h : LeftCut m skips before entry) :
    ∃ piece ∈ (entryPieces skips entry).take (m - (before.flatMap (entryPieces skips)).length),
      ∃ x, Tested piece x ∧ InSkips skips x := by
  obtain ⟨sk, hsk, hword, hlo, hhi, hskips, hdrops, hroom⟩ := h
  have hpred := toNat_pred hlo
  have hholds : entry.Holds (sk.start - 1) := by
    rw [UInt64.lt_iff_toNat_lt] at hlo
    rw [UInt64.le_iff_toNat_le] at hhi
    unfold VmMapEntry.Holds
    rw [UInt64.le_iff_toNat_le, UInt64.lt_iff_toNat_lt, hpred]
    omega
  obtain ⟨piece, hpiece, hfrom, hto⟩ :=
    (inMap_take_iff hproper before entry _).mpr ⟨hholds, hskips, hdrops, hroom⟩
  have hmisses := misses_of_mem_entryPieces (List.mem_of_mem_take hpiece)
  refine ⟨piece, hpiece, (touches_iff hproper hmisses).mpr ⟨?_, sk, hsk, hword, ?_⟩⟩
  · exact UInt64.le_of_lt (UInt64.lt_of_le_of_lt hfrom hto)
  · have hmiss : sk.endPa.toNat ≤ piece.start.toNat ∨ sk.start.toNat ≥ piece.stop.toNat :=
      hmisses sk hsk
    have hskip := hproper sk hsk
    rw [UInt64.lt_iff_toNat_lt] at hskip hto hlo
    rw [UInt64.le_iff_toNat_le] at hfrom
    rw [hpred] at hto hfrom
    apply UInt64.toNat_inj.mp
    omega

theorem touch_of_point (hproper : ProperSkips skips) {before : List (VmMapEntry B)}
    {entry : VmMapEntry B} (h : PointAtSkip m skips before entry) :
    ∃ piece ∈ (entryPieces skips entry).take (m - (before.flatMap (entryPieces skips)).length),
      ∃ x, Tested piece x ∧ InSkips skips x := by
  obtain ⟨hpoint, hskip, hmisses, hroom⟩ := h
  obtain ⟨sk, hsk, hword, hstart⟩ := hskip
  have hmiss : ∀ sk ∈ skips, Misses (skipSeg sk) entry.remnant.seg := by
    intro sk' hsk'
    rw [← misses_iff]
    refine (hmisses sk' hsk').imp_right fun h => ?_
    rw [hpoint] at h
    exact h
  refine ⟨entry, ?_, (touches_iff hproper hmiss).mpr ⟨?_, sk, hsk, hword, ?_⟩⟩
  · rw [entryPieces_of_misses hmiss, List.take_of_length_le (by rw [List.length_singleton]; omega)]
    exact List.mem_singleton_self entry
  · rw [hpoint]
    exact UInt64.le_refl _
  · rw [hstart, hpoint]

/-- Among the pieces of one entry a word of a skip range is tested exactly after a left cut,
or where the entry is such a word. -/
theorem piece_touches_iff (hproper : ProperSkips skips) (before : List (VmMapEntry B))
    (entry : VmMapEntry B) :
    (∃ piece ∈ (entryPieces skips entry).take (m - (before.flatMap (entryPieces skips)).length),
      ∃ x, Tested piece x ∧ InSkips skips x) ↔
      LeftCut m skips before entry ∨ PointAtSkip m skips before entry := by
  constructor
  · rintro ⟨piece, hpiece, htouch⟩
    exact cut_of_touch hproper hpiece htouch
  · intro h
    exact h.elim (touch_of_leftCut hproper) (touch_of_point hproper)

/-- The tests stay out of the skip ranges exactly when no entry is cut from the left and
none is a single word at the start of a range. -/
theorem neverTouches_iff (ranges : List (UInt64 × UInt64)) {result : List (VmMapEntry B)}
    (hsize : vmMap.length ≤ m)
    (h : boardPruneVmMap m (addSkips {} ranges).skips vmMap = .ok result) :
    NeverTouches (addSkips {} ranges).skips result ↔
      ∀ before entry after, vmMap = before ++ entry :: after →
        ¬LeftCut m (addSkips {} ranges).skips before entry ∧
          ¬PointAtSkip m (addSkips {} ranges).skips before entry := by
  have hproper : ProperSkips (addSkips {} ranges).skips :=
    addSkips_proper ranges fun s hs => absurd hs List.not_mem_nil
  generalize (addSkips {} ranges).skips = skips at hproper h ⊢
  obtain ⟨-, rfl⟩ := boardPruneVmMap_ok hsize h
  constructor
  · intro hnever before entry after heq
    rw [← not_or, ← piece_touches_iff hproper]
    rintro ⟨piece, hpiece, x, htested, hskips⟩
    exact hnever piece ((mem_take_flatMap _ _ _ _).mpr ⟨before, entry, after, heq, hpiece⟩) x
      htested hskips
  · intro hnone piece hpiece x htested hskips
    obtain ⟨before, entry, after, heq, htake⟩ := (mem_take_flatMap _ _ _ _).mp hpiece
    have hentry := hnone before entry after heq
    rw [← not_or, ← piece_touches_iff hproper] at hentry
    exact hentry ⟨piece, htake, x, htested, hskips⟩

end

/-- A range at the start of a segment leaves only the part behind it. -/
theorem neverTouches_leading_skip :
    [(⟨(), 0x100000, 0x10000000⟩ : VmMapEntry Unit)].length ≤ 127 ∧
      NeverTouches (addSkips {} [(0x100000, 0x200000)]).skips
        [(⟨(), 0x200000, 0x10000000⟩ : VmMapEntry Unit)] := by
  have hcall : boardPruneVmMap 127 (addSkips {} [(0x100000, 0x200000)]).skips
      [(⟨(), 0x100000, 0x10000000⟩ : VmMapEntry Unit)] = .ok [⟨(), 0x200000, 0x10000000⟩] := rfl
  refine ⟨by decide, ?_⟩
  apply (neverTouches_iff [(0x100000, 0x200000)] (by decide) hcall).mpr
  intro before entry after heq
  have hentry : entry = ⟨(), 0x100000, 0x10000000⟩ := by
    have hmem : entry ∈ [(⟨(), 0x100000, 0x10000000⟩ : VmMapEntry Unit)] := by
      rw [heq]
      exact List.mem_append_right _ List.mem_cons_self
    exact List.mem_singleton.mp hmem
  subst hentry
  constructor
  · rintro ⟨sk, hsk, -, hlo, -⟩
    revert sk
    decide
  · rintro ⟨hpoint, -⟩
    exact absurd hpoint (by decide)

/-- A range in the middle of a segment: the word at its start ends the first piece. -/
theorem skip_start_still_tested :
    boardPruneVmMap 127 (addSkips {} [(0x100000, 0x200000)]).skips
        [(⟨(), 0, 0x10000000⟩ : VmMapEntry Unit)] =
        .ok [⟨(), 0, 0x100000⟩, ⟨(), 0x200000, 0x10000000⟩] ∧
      ¬NeverTouches (addSkips {} [(0x100000, 0x200000)]).skips
        [(⟨(), 0, 0x100000⟩ : VmMapEntry Unit), ⟨(), 0x200000, 0x10000000⟩] := by
  refine ⟨rfl, fun hnever => ?_⟩
  apply hnever ⟨(), 0, 0x100000⟩ List.mem_cons_self 0x100000 ⟨by decide, by decide, by decide⟩
  exact ⟨⟨0x100000, 0x200000, 1⟩, by decide, by decide, by decide⟩

end BankFinder.PrunedMap
