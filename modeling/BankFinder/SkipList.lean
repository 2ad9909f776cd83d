import BankFinder.LabelledRuns
import BankFinder.SegmentMerge
import BankFinder.SkipPrune

/-!
# The skip list over a whole run

`badmem_log_add_skip` grows the first entry which a new range overlaps or abuts. The
entries cover what was passed in and nothing else, and their hits count the calls. A
range which lies between two entries joins only the first of them, so the list does not
stay merged.
-/

namespace BankFinder.SkipList
open BadmemLog SkipPrune SegmentCut SegmentMerge LabelledRuns

/-- The arguments of one call. -/
def rangeSeg (r : UInt64 × UInt64) : Seg ℕ := ⟨r.1.toNat, r.2.toNat⟩

def segs (log : Log) : List (Seg ℕ) := log.skips.map skipSeg

def addSkip (log : Log) (r : UInt64 × UInt64) : Log := badmemLogAddSkip log r.1 r.2

theorem addSkips_eq_foldl (log : Log) (ranges : List (UInt64 × UInt64)) :
    addSkips log ranges = ranges.foldl addSkip log := rfl

theorem addSkips_append_singleton (log : Log) (ranges : List (UInt64 × UInt64))
    (r : UInt64 × UInt64) : addSkips log (ranges ++ [r]) = addSkip (addSkips log ranges) r := by
  rw [addSkips_eq_foldl, List.foldl_append]
  rfl

def hitSum (skips : List SkipRange) : ℕ := (skips.map fun s => s.hits.toNat).sum

theorem misses_touch_iff (startPa endPa : UInt64) (s : SkipRange) :
    (endPa < s.start ∨ startPa > s.endPa) ↔ ¬Touches (rangeSeg (startPa, endPa)) (skipSeg s) := by
  unfold Touches
  rw [not_and_or, not_le, not_le, or_comm, UInt64.lt_iff_toNat_lt, gt_iff_lt,
    UInt64.lt_iff_toNat_lt]
  rfl

theorem skipSeg_grown (startPa endPa : UInt64) (s : SkipRange) (hits : UInt32) :
    skipSeg ⟨if startPa < s.start then startPa else s.start,
      if endPa > s.endPa then endPa else s.endPa, hits⟩ =
      hull (rangeSeg (startPa, endPa)) (skipSeg s) := by
  have hlo : (if startPa < s.start then startPa else s.start).toNat =
      min startPa.toNat s.start.toNat := by
    simp only [UInt64.lt_iff_toNat_lt]
    split_ifs <;> omega
  have hhi : (if endPa > s.endPa then endPa else s.endPa).toNat =
      max endPa.toNat s.endPa.toNat := by
    simp only [gt_iff_lt, UInt64.lt_iff_toNat_lt]
    split_ifs <;> omega
  exact congrArg₂ Seg.mk hlo hhi

theorem mergeSkip_segs (startPa endPa : UInt64) (skips : List SkipRange) :
    (mergeSkip startPa endPa skips).map (List.map skipSeg) =
      absorb (rangeSeg (startPa, endPa)) (skips.map skipSeg) := by
  induction skips with
  | nil => rfl
  | cons s skips ih =>
      rw [List.map_cons]
      unfold mergeSkip absorb
      rw [← ih]
      by_cases htouch : Touches (rangeSeg (startPa, endPa)) (skipSeg s)
      · have hhit : ¬(endPa < s.start ∨ startPa > s.endPa) := by
          rw [misses_touch_iff, not_not]
          exact htouch
        rw [if_pos htouch, if_neg hhit, Option.map_some, List.map_cons, skipSeg_grown]
      · rw [if_neg htouch, if_pos ((misses_touch_iff startPa endPa s).mpr htouch), Option.map_map,
          Option.map_map]
        rfl

theorem addSkip_of_empty {log : Log} {r : UInt64 × UInt64} (h : ¬r.1 < r.2) :
    addSkip log r = log := by
  have hle : r.2 ≤ r.1 := by
    rw [UInt64.le_iff_toNat_le]
    rw [UInt64.lt_iff_toNat_lt] at h
    exact not_lt.mp h
  unfold addSkip badmemLogAddSkip
  rw [if_pos hle]

theorem not_le_of_proper {r : UInt64 × UInt64} (h : r.1 < r.2) : ¬r.2 ≤ r.1 := by
  rw [UInt64.le_iff_toNat_le]
  exact not_le.mpr (UInt64.lt_iff_toNat_lt.mp h)

theorem segs_addSkip {log : Log} {r : UInt64 × UInt64} (h : r.1 < r.2) :
    segs (addSkip log r) = insertSeg skipMax (segs log) (rangeSeg r) := by
  have hmerge := mergeSkip_segs r.1 r.2 log.skips
  unfold addSkip badmemLogAddSkip insertSeg segs
  rw [if_neg (not_le_of_proper h), ← hmerge, List.length_map]
  cases mergeSkip r.1 r.2 log.skips with
  | some merged => rfl
  | none =>
      simp only [Option.map_none]
      split_ifs
      · rw [List.map_append]
        rfl
      · rfl

theorem proper_segs {log : Log} : Proper (segs log) ↔ ProperSkips log.skips := by
  unfold Proper ProperSkips segs
  rw [List.forall_mem_map]
  simp only [UInt64.lt_iff_toNat_lt]
  rfl

theorem proper_addSkip (log : Log) (r : UInt64 × UInt64) (h : Proper (segs log)) :
    Proper (segs (addSkip log r)) :=
  proper_segs.mpr (badmemLogAddSkip_proper (proper_segs.mp h) r.1 r.2)

/-- The call finds the table full and no entry which its range overlaps or abuts. -/
def MeetsFullTable (log : Log) (r : UInt64 × UInt64) : Prop :=
  r.1 < r.2 ∧ skipMax ≤ log.skips.length ∧ ∀ s ∈ log.skips, r.2 < s.start ∨ s.endPa < r.1

theorem fits_of_not_full {log : Log} {r : UInt64 × UInt64} (hr : r.1 < r.2)
    (h : ¬MeetsFullTable log r) : Fits skipMax (segs log) (rangeSeg r) := by
  intro hnone
  rw [segs, List.length_map]
  by_contra hfull
  refine h ⟨hr, not_lt.mp hfull, ?_⟩
  intro s hs
  exact (misses_touch_iff r.1 r.2 s).mpr (hnone _ (List.mem_map_of_mem hs))

theorem length_addSkips_le (ranges : List (UInt64 × UInt64)) :
    (addSkips {} ranges).skips.length ≤ ranges.length := by
  induction ranges using List.reverseRecOn with
  | nil => exact le_rfl
  | append_singleton ranges r ih =>
      rw [addSkips_append_singleton, List.length_append]
      by_cases hr : r.1 < r.2
      · have hstep := length_insertSeg_le skipMax (segs (addSkips {} ranges)) (rangeSeg r)
        rw [← segs_addSkip hr, segs, segs, List.length_map, List.length_map] at hstep
        exact hstep.trans (Nat.succ_le_succ ih)
      · rw [addSkip_of_empty hr]
        exact ih.trans (Nat.le_add_right _ _)

/-- A run with no more calls than the table has entries never finds it full. -/
theorem not_meetsFullTable_of_short {ranges : List (UInt64 × UInt64)}
    (h : ranges.length ≤ skipMax) {before : List (UInt64 × UInt64)} {r : UInt64 × UInt64}
    (hr : before ++ [r] <+: ranges) : ¬MeetsFullTable (addSkips {} before) r := by
  intro hfull
  have hshort := hr.length_le
  have hlength := hfull.2.1.trans (length_addSkips_le before)
  rw [List.length_append, List.length_singleton] at hshort
  omega

theorem inSkips_iff_covered (skips : List SkipRange) (x : UInt64) :
    InSkips skips x ↔ Covered (skips.map skipSeg) x.toNat := by
  rw [inSkips_iff]
  rfl

theorem mem_rangeSeg (r : UInt64 × UInt64) (x : UInt64) :
    x.toNat ∈ rangeSeg r ↔ r.1 ≤ x ∧ x < r.2 := by
  rw [UInt64.le_iff_toNat_le, UInt64.lt_iff_toNat_lt]
  rfl

theorem inSkips_addSkip {log : Log} {r : UInt64 × UInt64} (h : ¬MeetsFullTable log r)
    (x : UInt64) : InSkips (addSkip log r).skips x ↔
      InSkips log.skips x ∨ r.1 ≤ x ∧ x < r.2 := by
  by_cases hr : r.1 < r.2
  · have hcovered := covered_insertSeg (fits_of_not_full hr h) x.toNat
    rw [← segs_addSkip hr, mem_rangeSeg] at hcovered
    rw [inSkips_iff_covered, inSkips_iff_covered]
    exact hcovered
  · rw [addSkip_of_empty hr]
    constructor
    · exact Or.inl
    · intro hx
      rcases hx with hx | ⟨hlo, hhi⟩
      · exact hx
      · rw [UInt64.lt_iff_toNat_lt] at hr hhi
        rw [UInt64.le_iff_toNat_le] at hlo
        exact absurd (hlo.trans_lt hhi) hr

theorem hitSum_mergeSkip {startPa endPa : UInt64} {skips merged : List SkipRange}
    (hsmall : hitSum skips < 2 ^ 32 - 1) (h : mergeSkip startPa endPa skips = some merged) :
    hitSum merged = hitSum skips + 1 := by
  induction skips generalizing merged with
  | nil => exact absurd h (by simp [mergeSkip])
  | cons s skips ih =>
      have hcons (t : SkipRange) (ts : List SkipRange) :
          hitSum (t :: ts) = t.hits.toNat + hitSum ts := rfl
      rw [hcons] at hsmall ⊢
      unfold mergeSkip at h
      by_cases hmiss : endPa < s.start ∨ startPa > s.endPa
      · rw [if_pos hmiss] at h
        obtain ⟨rest, hsome, rfl⟩ := Option.map_eq_some_iff.mp h
        rw [hcons, ih (by omega) hsome]
        omega
      · have hroom : s.hits < 0xFFFFFFFF := by
          have hmax : (0xFFFFFFFF : UInt32).toNat = 2 ^ 32 - 1 := rfl
          rw [UInt32.lt_iff_toNat_lt, hmax]
          omega
        have hadd : (s.hits + 1).toNat = s.hits.toNat + 1 := by
          rw [UInt32.toNat_add, UInt32.toNat_one]
          omega
        rw [if_neg hmiss, if_pos hroom] at h
        rw [← Option.some.inj h, hcons]
        simp only [hadd]
        omega

theorem hitSum_addSkip {log : Log} {r : UInt64 × UInt64} (h : ¬MeetsFullTable log r)
    (hsmall : r.1 < r.2 → hitSum log.skips < 2 ^ 32 - 1) :
    hitSum (addSkip log r).skips = hitSum log.skips + if r.1 < r.2 then 1 else 0 := by
  by_cases hr : r.1 < r.2
  · rw [if_pos hr]
    unfold addSkip badmemLogAddSkip
    rw [if_neg (not_le_of_proper hr)]
    cases hmerge : mergeSkip r.1 r.2 log.skips with
    | some merged => exact hitSum_mergeSkip (hsmall hr) hmerge
    | none =>
        have hroom : log.skips.length < skipMax := by
          have hnone := mergeSkip_segs r.1 r.2 log.skips
          rw [hmerge, Option.map_none] at hnone
          have hfits := fits_of_not_full hr h (absorb_eq_none.mp hnone.symm)
          rwa [segs, List.length_map] at hfits
        simp only [if_pos hroom]
        simp [hitSum]
  · rw [if_neg hr, addSkip_of_empty hr]
    rfl

/-- What the list has to say about the calls so far. -/
structure Exact (ranges : List (UInt64 × UInt64)) (skips : List SkipRange) : Prop where
  union : ∀ x, InSkips skips x ↔ ∃ r ∈ ranges, r.1 ≤ x ∧ x < r.2
  proper : ∀ s ∈ skips, s.start < s.endPa
  hits : (ranges.countP fun r => r.1 < r.2) < 2 ^ 32 →
    hitSum skips = ranges.countP fun r => r.1 < r.2

/-- The list loses and invents nothing as long as no range is turned away. -/
theorem addSkips_exact (ranges : List (UInt64 × UInt64))
    (h : ∀ before r, before ++ [r] <+: ranges → ¬MeetsFullTable (addSkips {} before) r) :
    Exact ranges (addSkips {} ranges).skips := by
  induction ranges using List.reverseRecOn with
  | nil =>
      refine ⟨fun x => by simp [addSkips, InSkips], ?_, fun _ => rfl⟩
      exact fun s hs => absurd hs List.not_mem_nil
  | append_singleton ranges r ih =>
      have hexact := ih fun before q hq => h before q (hq.trans (List.prefix_append _ _))
      have hroom := h ranges r List.prefix_rfl
      rw [addSkips_append_singleton]
      refine ⟨?_, badmemLogAddSkip_proper hexact.proper r.1 r.2, ?_⟩
      · intro x
        rw [inSkips_addSkip hroom, hexact.union]
        simp [or_and_right, exists_or]
      · intro hcount
        rw [List.countP_append, List.countP_singleton] at hcount ⊢
        simp only [decide_eq_true_eq] at hcount ⊢
        have hbefore := hexact.hits (by omega)
        rw [hitSum_addSkip hroom, hbefore]
        intro hr
        rw [if_pos hr] at hcount
        omega

/-- Three calls on two entries, the second of which reaches from one entry to the other. -/
theorem addSkips_exact_three :
    Exact [(0, 0x100000), (0x200000, 0x300000), (0x100000, 0x200000)]
      (addSkips {} [(0, 0x100000), (0x200000, 0x300000), (0x100000, 0x200000)]).skips :=
  addSkips_exact _ fun _ _ hr => not_meetsFullTable_of_short (by decide) hr

/-- No two entries overlap or abut, and each is a maximal run of what is skipped. -/
structure Coalesced (skips : List SkipRange) : Prop where
  apart : skips.Pairwise fun s t => s.endPa < t.start ∨ t.endPa < s.start
  count : skips.length = {p | MaximalRun (Covered (skips.map skipSeg)) p}.ncard

theorem merged_segs {skips : List SkipRange} : Merged (skips.map skipSeg) ↔
    skips.Pairwise fun s t => s.endPa < t.start ∨ t.endPa < s.start := by
  have hseparate (s t : SkipRange) : Separate (skipSeg s) (skipSeg t) ↔
      s.endPa < t.start ∨ t.endPa < s.start := by
    unfold Separate Touches
    rw [not_and_or, not_le, not_le, or_comm, UInt64.lt_iff_toNat_lt, UInt64.lt_iff_toNat_lt]
    rfl
  unfold Merged
  rw [List.pairwise_map]
  simp only [hseparate]

theorem coalesced_iff {log : Log} (h : Proper (segs log)) :
    Coalesced log.skips ↔ Merged (segs log) := by
  constructor
  · intro hlog
    exact merged_segs.mpr hlog.apart
  · intro hmerged
    have hcount := length_eq_ncard_maximalRun h hmerged
    rw [segs, List.length_map] at hcount
    exact ⟨merged_segs.mp hmerged, hcount⟩

/-- The range overlaps or abuts at most one entry. -/
def TouchesOne (skips : List SkipRange) (r : UInt64 × UInt64) : Prop :=
  r.1 < r.2 → (skips.filter fun s => r.1 ≤ s.endPa ∧ s.start ≤ r.2).length ≤ 1

theorem touchesOne_iff {log : Log} {r : UInt64 × UInt64} (hr : r.1 < r.2) :
    TouchesOne log.skips r ↔ TouchesAtMostOne (segs log) (rangeSeg r) := by
  have hfilter : (segs log).filter (fun s => Touches (rangeSeg r) s) =
      (log.skips.filter fun s => r.1 ≤ s.endPa ∧ s.start ≤ r.2).map skipSeg := by
    unfold segs
    rw [List.filter_map]
    congr 2
  unfold TouchesOne TouchesAtMostOne
  rw [hfilter, List.length_map]
  exact ⟨fun h => h hr, fun h _ => h⟩

/-- The list is merged after every call exactly when no call reaches from one entry to another. -/
theorem skips_coalesced_iff (ranges : List (UInt64 × UInt64)) :
    (∀ before, before <+: ranges → Coalesced (addSkips {} before).skips) ↔
      ∀ before r, before ++ [r] <+: ranges → TouchesOne (addSkips {} before).skips r := by
  have hempty : Proper (segs {}) := fun s hs => absurd hs List.not_mem_nil
  refine forall_prefix_iff (I := fun log => Proper (segs log)) (P := fun log => Coalesced log.skips)
    (G := fun log r => TouchesOne log.skips r) proper_addSkip ?_ hempty ?_ ranges
  · intro log r hproper hlog
    rw [coalesced_iff (proper_addSkip log r hproper)]
    by_cases hr : r.1 < r.2
    · rw [segs_addSkip hr, touchesOne_iff hr]
      exact merged_insertSeg_iff hproper ((coalesced_iff hproper).mp hlog)
    · rw [addSkip_of_empty hr]
      exact iff_of_true ((coalesced_iff hproper).mp hlog) fun h => absurd h hr
  · exact (coalesced_iff hempty).mpr List.Pairwise.nil

/-- A range which closes the gap between two entries leaves two entries which abut. -/
theorem gap_closed_unmerged :
    ¬Coalesced (addSkips {} [(0, 0x100000), (0x200000, 0x300000), (0x100000, 0x200000)]).skips := by
  intro h
  exact absurd h.apart (by decide)

end BankFinder.SkipList
