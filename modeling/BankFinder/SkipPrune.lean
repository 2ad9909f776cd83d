import BankFinder.BadmemLog
import BankFinder.SegmentCut

/-!
# Pruning the test windows

`board_prune_vm_map` cuts the recorded skip ranges out of every entry of `vm_map`.
Each entry is worked on in two local arrays of eight pieces; pieces made by a cut
are stored only while there is room, a piece which is kept as it is is stored
without a check. Every write to an array is modelled with its bounds check, so
that a run which leaves an array ends in a fault. The capacity of `vm_map` is a
parameter, as are the other fields of its entries.
-/

namespace BankFinder.SkipPrune
open BadmemLog SegmentCut

/-- The array whose bounds were left. -/
inductive Fault where
  | work
  | newWork
  | scratch
  | vmMap
  deriving DecidableEq, Repr

/-- `remnant_t` -/
structure Remnant where
  s : UInt64
  e : UInt64
  deriving DecidableEq, Repr

/-- An entry of `vm_map`; `base` stands for the fields besides `start` and `end`. -/
structure VmMapEntry (B : Type) where
  base : B
  start : UInt64
  stop : UInt64
  deriving DecidableEq, Repr

def workSize : ℕ := 8

/-- Write behind the last entry in use of an array of `size` entries. -/
def push {A : Type} (fault : Fault) (size : ℕ) (xs : List A) (x : A) : Except Fault (List A) :=
  if xs.length < size then .ok (xs ++ [x]) else .error fault

/-- A write behind a check which also asks for room. -/
def guardedPush {A : Type} (fault : Fault) (size : ℕ) (b : Prop) [Decidable b] (xs : List A)
    (x : A) : Except Fault (List A) :=
  if b ∧ xs.length < size then push fault size xs x else .ok xs

/-- Copy the first list behind the second while there is room. -/
def copyWhileRoom {A : Type} (fault : Fault) (size : ℕ) :
    List A → List A → Except Fault (List A)
  | [], out => .ok out
  | x :: xs, out =>
      if out.length < size then do
        let out ← push fault size out x
        copyWhileRoom fault size xs out
      else .ok out

structure Cutting where
  newWork : List Remnant
  anyPruned : Bool
  deriving DecidableEq, Repr

/-- One skip range against one remnant. -/
def cutRemnant (sk : SkipRange) (c : Cutting) (w : Remnant) : Except Fault Cutting :=
  if sk.endPa ≤ w.s ∨ sk.start ≥ w.e then do
    let newWork ← push .newWork workSize c.newWork w
    .ok ⟨newWork, c.anyPruned⟩
  else do
    let left ← guardedPush .newWork workSize (sk.start > w.s) c.newWork ⟨w.s, sk.start⟩
    let right ← guardedPush .newWork workSize (sk.endPa < w.e) left ⟨sk.endPa, w.e⟩
    .ok ⟨right, true⟩

/-- The loop over the skip ranges; `new_work` becomes `work` for the next one. -/
def cutBySkips : List SkipRange → Cutting → Except Fault Cutting
  | [], c => .ok c
  | sk :: skips, c =>
      if c.newWork.isEmpty then .ok c
      else do
        let c' ← c.newWork.foldlM (cutRemnant sk) ⟨[], c.anyPruned⟩
        cutBySkips skips c'

section
variable {B : Type}

def VmMapEntry.withBounds (entry : VmMapEntry B) (w : Remnant) : VmMapEntry B :=
  { entry with start := w.s, stop := w.e }

structure Rebuild (B : Type) where
  scratch : List (VmMapEntry B)
  anyPruned : Bool
  deriving DecidableEq, Repr

def rebuildEntry (maxMemSegments : ℕ) (skips : List SkipRange) (r : Rebuild B)
    (entry : VmMapEntry B) : Except Fault (Rebuild B) := do
  let work ← push .work workSize [] ⟨entry.start, entry.stop⟩
  let c ← cutBySkips skips ⟨work, r.anyPruned⟩
  let scratch ← copyWhileRoom .scratch (maxMemSegments * 2) (c.newWork.map entry.withBounds)
    r.scratch
  .ok ⟨scratch, c.anyPruned⟩

/-- The rebuilt map before it is copied back; its length is `out`. -/
def rebuild (maxMemSegments : ℕ) (skips : List SkipRange) (vmMap : List (VmMapEntry B)) :
    Except Fault (Rebuild B) :=
  vmMap.foldlM (rebuildEntry maxMemSegments skips) ⟨[], false⟩

/-- `vm_map` up to `vm_map_size` after the call. -/
def boardPruneVmMap (maxMemSegments : ℕ) (skips : List SkipRange)
    (vmMap : List (VmMapEntry B)) : Except Fault (List (VmMapEntry B)) :=
  if skips.isEmpty then .ok vmMap
  else do
    let r ← rebuild maxMemSegments skips vmMap
    if r.anyPruned then copyWhileRoom .vmMap maxMemSegments r.scratch [] else .ok vmMap

end

@[simp] theorem ok_bind {A C : Type} (x : A) (f : A → Except Fault C) :
    (Except.ok x >>= f) = f x := rfl

@[simp] theorem error_bind {A C : Type} (fault : Fault) (f : A → Except Fault C) :
    (Except.error fault >>= f) = .error fault := rfl

def Remnant.seg (w : Remnant) : Seg ℕ := ⟨w.s.toNat, w.e.toNat⟩
def skipSeg (sk : SkipRange) : Seg ℕ := ⟨sk.start.toNat, sk.endPa.toNat⟩

/-- The pieces a cut makes, without regard to room. -/
def pieces (sk : SkipRange) (w : Remnant) : List Remnant :=
  if sk.endPa ≤ w.s ∨ sk.start ≥ w.e then [w]
  else (if sk.start > w.s then [⟨w.s, sk.start⟩] else []) ++
    if sk.endPa < w.e then [⟨sk.endPa, w.e⟩] else []

theorem misses_iff (sk : SkipRange) (w : Remnant) :
    (sk.endPa ≤ w.s ∨ sk.start ≥ w.e) ↔ Misses (skipSeg sk) w.seg := by
  unfold Misses
  rw [UInt64.le_iff_toNat_le, ge_iff_le, UInt64.le_iff_toNat_le]
  rfl

theorem map_pieces (sk : SkipRange) (w : Remnant) :
    (pieces sk w).map Remnant.seg = cut (skipSeg sk) w.seg := by
  unfold pieces cut
  by_cases hmiss : sk.endPa ≤ w.s ∨ sk.start ≥ w.e
  · rw [if_pos hmiss, if_pos ((misses_iff sk w).mp hmiss)]
    rfl
  · rw [if_neg hmiss, if_neg (fun h => hmiss ((misses_iff sk w).mpr h)), List.map_append]
    have hleft : sk.start > w.s ↔ (skipSeg sk).lo > w.seg.lo := UInt64.lt_iff_toNat_lt
    have hright : sk.endPa < w.e ↔ (skipSeg sk).hi < w.seg.hi := UInt64.lt_iff_toNat_lt
    simp only [hleft, hright]
    split_ifs <;> rfl

theorem length_pieces (sk : SkipRange) (w : Remnant) :
    (pieces sk w).length = (cut (skipSeg sk) w.seg).length := by
  rw [← map_pieces, List.length_map]

theorem map_flatMap_pieces (sk : SkipRange) (ws : List Remnant) :
    (ws.flatMap (pieces sk)).map Remnant.seg = cutAll (skipSeg sk) (ws.map Remnant.seg) := by
  induction ws with
  | nil => rfl
  | cons w ws ih =>
      rw [List.flatMap_cons, List.map_append, ih, map_pieces]
      rfl

theorem take_append_pieces {A : Type} (full xs : List A) (cap : ℕ) :
    (full.take cap ++ xs).take cap = (full ++ xs).take cap := by
  rw [List.take_append, List.take_append, List.take_take, Nat.min_self, List.length_take]
  congr 2
  omega

theorem guardedPush_eq {A : Type} (fault : Fault) {size : ℕ} {xs : List A}
    (hxs : xs.length ≤ size) (b : Prop) [Decidable b] (x : A) :
    guardedPush fault size b xs x = .ok ((xs ++ if b then [x] else []).take size) := by
  unfold guardedPush
  by_cases hb : b
  · by_cases hroom : xs.length < size
    · have hlen : (xs ++ [x]).length ≤ size := by
        rw [List.length_append, List.length_singleton]
        omega
      rw [if_pos ⟨hb, hroom⟩, if_pos hb, push, if_pos hroom, List.take_of_length_le hlen]
    · rw [if_neg (fun h => hroom h.2), if_pos hb, List.take_append_of_le_length (by omega),
        List.take_of_length_le hxs]
  · rw [if_neg (fun h => hb h.1), if_neg hb, List.append_nil, List.take_of_length_le hxs]

theorem copyWhileRoom_eq {A : Type} (fault : Fault) {size : ℕ} (xs : List A) {out : List A}
    (hout : out.length ≤ size) :
    copyWhileRoom fault size xs out = .ok ((out ++ xs).take size) := by
  induction xs generalizing out with
  | nil =>
      rw [List.append_nil, List.take_of_length_le hout]
      rfl
  | cons x xs ih =>
      unfold copyWhileRoom
      by_cases hroom : out.length < size
      · have hlen : (out ++ [x]).length ≤ size := by
          rw [List.length_append, List.length_singleton]
          omega
        rw [if_pos hroom, push, if_pos hroom]
        calc copyWhileRoom fault size xs (out ++ [x])
            = .ok ((out ++ [x] ++ xs).take size) := ih hlen
          _ = .ok ((out ++ x :: xs).take size) := by rw [List.append_assoc]; rfl
      · rw [if_neg hroom, List.take_append_of_le_length (by omega), List.take_of_length_le hout]

theorem cutRemnant_miss {sk : SkipRange} {w : Remnant} (h : Misses (skipSeg sk) w.seg)
    (full : List Remnant) (b : Bool) :
    cutRemnant sk ⟨full.take workSize, b⟩ w =
      if full.length < workSize then .ok ⟨(full ++ pieces sk w).take workSize, b⟩
      else .error .newWork := by
  have hmiss := (misses_iff sk w).mpr h
  unfold cutRemnant pieces
  rw [if_pos hmiss, if_pos hmiss]
  by_cases hroom : full.length < workSize
  · have hlen : (full ++ [w]).length ≤ workSize := by
      rw [List.length_append, List.length_singleton]
      omega
    rw [List.take_of_length_le hroom.le, List.take_of_length_le hlen, push, if_pos hroom,
      if_pos hroom]
    rfl
  · have hfull : (full.take workSize).length = workSize := by
      rw [List.length_take]
      omega
    rw [push, hfull, if_neg (Nat.lt_irrefl _), if_neg hroom]
    rfl

theorem cutRemnant_hit {sk : SkipRange} {w : Remnant} (h : ¬Misses (skipSeg sk) w.seg)
    (full : List Remnant) (b : Bool) :
    cutRemnant sk ⟨full.take workSize, b⟩ w =
      .ok ⟨(full ++ pieces sk w).take workSize, true⟩ := by
  have hmiss : ¬(sk.endPa ≤ w.s ∨ sk.start ≥ w.e) := fun hm => h ((misses_iff sk w).mp hm)
  have hleft := guardedPush_eq .newWork (List.length_take_le workSize full) (sk.start > w.s)
    ⟨w.s, sk.start⟩
  rw [take_append_pieces] at hleft
  have hright := guardedPush_eq .newWork (List.length_take_le workSize
    (full ++ if sk.start > w.s then [⟨w.s, sk.start⟩] else [])) (sk.endPa < w.e) ⟨sk.endPa, w.e⟩
  rw [take_append_pieces, List.append_assoc] at hright
  unfold cutRemnant pieces
  rw [if_neg hmiss, if_neg hmiss, hleft, ok_bind, hright, ok_bind]

/-- One skip range against a work list: the first eight pieces, unless it is blocked. -/
theorem foldlM_cutRemnant (sk : SkipRange) (ws full : List Remnant) (b : Bool) :
    (Blocked workSize (skipSeg sk) full.length (ws.map Remnant.seg) →
      ws.foldlM (cutRemnant sk) ⟨full.take workSize, b⟩ = .error .newWork) ∧
    (¬Blocked workSize (skipSeg sk) full.length (ws.map Remnant.seg) →
      ws.foldlM (cutRemnant sk) ⟨full.take workSize, b⟩ =
        .ok ⟨(full ++ ws.flatMap (pieces sk)).take workSize,
          b || ws.any fun w => !decide (Misses (skipSeg sk) w.seg)⟩) := by
  induction ws generalizing full b with
  | nil =>
      constructor
      · intro h
        exact absurd h (not_blocked_nil _ _ _)
      · intro _
        simp [pure, Except.pure]
  | cons w ws ih =>
      have hlength : (full ++ pieces sk w).length =
          full.length + (cut (skipSeg sk) w.seg).length := by
        rw [List.length_append, length_pieces]
      rw [List.map_cons, blocked_cons, List.foldlM_cons, ← hlength]
      by_cases hmiss : Misses (skipSeg sk) w.seg
      · rw [cutRemnant_miss hmiss]
        by_cases hroom : full.length < workSize
        · rw [if_pos hroom]
          obtain ⟨hblocked, hfree⟩ := ih (full ++ pieces sk w) b
          constructor
          · intro h
            rcases h with ⟨-, hcap⟩ | h
            · omega
            · exact hblocked h
          · intro h
            rw [not_or] at h
            have hstep := hfree h.2
            rw [List.append_assoc] at hstep
            simpa [hmiss] using hstep
        · rw [if_neg hroom]
          constructor
          · intro _
            rfl
          · intro h
            exact absurd (Or.inl ⟨hmiss, Nat.le_of_not_lt hroom⟩) h
      · rw [cutRemnant_hit hmiss]
        obtain ⟨hblocked, hfree⟩ := ih (full ++ pieces sk w) true
        constructor
        · intro h
          rcases h with ⟨hbad, -⟩ | h
          · exact absurd hbad hmiss
          · exact hblocked h
        · intro h
          rw [not_or] at h
          have hstep := hfree h.2
          rw [List.append_assoc] at hstep
          simpa [hmiss] using hstep

/-- The pieces in `work` when all skip ranges are through. -/
def survivors : List SkipRange → List Remnant → List Remnant
  | [], ws => ws
  | sk :: skips, ws => survivors skips ((ws.flatMap (pieces sk)).take workSize)

def overlapped : List SkipRange → List Remnant → Bool
  | [], _ => false
  | sk :: skips, ws =>
      (ws.any fun w => !decide (Misses (skipSeg sk) w.seg)) ||
        overlapped skips ((ws.flatMap (pieces sk)).take workSize)

theorem survivors_nil (skips : List SkipRange) : survivors skips [] = [] := by
  induction skips with
  | nil => rfl
  | cons sk skips ih => exact ih

theorem overlapped_nil (skips : List SkipRange) : overlapped skips [] = false := by
  induction skips with
  | nil => rfl
  | cons sk skips ih => exact ih

theorem map_take_pieces (sk : SkipRange) (ws : List Remnant) :
    ((ws.flatMap (pieces sk)).take workSize).map Remnant.seg =
      (cutAll (skipSeg sk) (ws.map Remnant.seg)).take workSize := by
  rw [List.map_take, map_flatMap_pieces]

theorem map_survivors (skips : List SkipRange) (ws : List Remnant) :
    (survivors skips ws).map Remnant.seg =
      cutRun workSize (skips.map skipSeg) (ws.map Remnant.seg) := by
  induction skips generalizing ws with
  | nil => rfl
  | cons sk skips ih =>
      unfold survivors
      rw [ih, map_take_pieces]
      rfl

/-- An entry which no skip range overlaps stays as it is. -/
theorem survivors_of_not_overlapped {skips : List SkipRange} {w : Remnant}
    (h : overlapped skips [w] = false) : survivors skips [w] = [w] := by
  induction skips with
  | nil => rfl
  | cons sk skips ih =>
      unfold overlapped at h
      obtain ⟨hany, hrest⟩ := Bool.or_eq_false_iff.mp h
      have hmiss : Misses (skipSeg sk) w.seg := by simpa using hany
      have hone : (([w].flatMap (pieces sk)).take workSize) = [w] := by
        have hkeep : pieces sk w = [w] := if_pos ((misses_iff sk w).mpr hmiss)
        rw [List.flatMap_singleton, hkeep]
        rfl
      unfold survivors
      rw [hone] at hrest ⊢
      exact ih hrest

theorem cutBySkips_nil (skips : List SkipRange) (b : Bool) :
    cutBySkips skips ⟨[], b⟩ = .ok ⟨[], b⟩ := by
  cases skips with
  | nil => rfl
  | cons sk skips => rfl

/-- The loop over the skip ranges: a fault on an overrun, else the surviving pieces. -/
theorem cutBySkips_eq (skips : List SkipRange) (ws : List Remnant) (b : Bool) :
    (Overruns workSize (skips.map skipSeg) (ws.map Remnant.seg) →
      cutBySkips skips ⟨ws, b⟩ = .error .newWork) ∧
    (¬Overruns workSize (skips.map skipSeg) (ws.map Remnant.seg) →
      cutBySkips skips ⟨ws, b⟩ = .ok ⟨survivors skips ws, b || overlapped skips ws⟩) := by
  induction skips generalizing ws b with
  | nil =>
      constructor
      · exact False.elim
      · intro _
        simp [cutBySkips, survivors, overlapped]
  | cons sk skips ih =>
      cases ws with
      | nil =>
          constructor
          · intro h
            exact absurd h (not_overruns_nil _ _)
          · intro _
            rw [cutBySkips_nil, survivors_nil, overlapped_nil, Bool.or_false]
      | cons w ws =>
          have hloop := foldlM_cutRemnant sk (w :: ws) [] b
          rw [List.take_nil, List.nil_append, List.length_nil] at hloop
          have hunfold : cutBySkips (sk :: skips) ⟨w :: ws, b⟩ =
              (w :: ws).foldlM (cutRemnant sk) ⟨[], b⟩ >>= cutBySkips skips := rfl
          rw [hunfold, List.map_cons]
          unfold Overruns
          rw [← map_take_pieces]
          constructor
          · intro h
            rcases h with h | h
            · rw [hloop.1 h, error_bind]
            · by_cases hblocked : Blocked workSize (skipSeg sk) 0 ((w :: ws).map Remnant.seg)
              · rw [hloop.1 hblocked, error_bind]
              · rw [hloop.2 hblocked, ok_bind]
                exact (ih _ _).1 h
          · intro h
            rw [not_or] at h
            rw [hloop.2 h.1, ok_bind, (ih _ _).2 h.2, Bool.or_assoc]
            rfl

section
variable {B : Type}

def VmMapEntry.remnant (entry : VmMapEntry B) : Remnant := ⟨entry.start, entry.stop⟩

/-- What one entry is replaced by. -/
def entryPieces (skips : List SkipRange) (entry : VmMapEntry B) : List (VmMapEntry B) :=
  (survivors skips [entry.remnant]).map entry.withBounds

/-- Some skip range misses a remnant of the entry when eight pieces have been made already
from the remnants before it. -/
def EntryOverruns (skips : List SkipRange) (entry : VmMapEntry B) : Prop :=
  Overruns workSize (skips.map skipSeg) [entry.remnant.seg]

/-- `x` is in a piece of the entry which is dropped for lack of room, and no later
skip range contains it. -/
def EntryDrops (skips : List SkipRange) (entry : VmMapEntry B) (x : UInt64) : Prop :=
  Loses workSize (skips.map skipSeg) [entry.remnant.seg] x.toNat

/-- The loop over `vm_map`: a fault if an entry overruns, else all pieces while there is room. -/
theorem foldlM_rebuildEntry (m : ℕ) (skips : List SkipRange) (vmMap full : List (VmMapEntry B))
    (b : Bool) :
    ((∃ entry ∈ vmMap, EntryOverruns skips entry) →
      vmMap.foldlM (rebuildEntry m skips) ⟨full.take (m * 2), b⟩ = .error .newWork) ∧
    ((∀ entry ∈ vmMap, ¬EntryOverruns skips entry) →
      vmMap.foldlM (rebuildEntry m skips) ⟨full.take (m * 2), b⟩ =
        .ok ⟨(full ++ vmMap.flatMap (entryPieces skips)).take (m * 2),
          b || vmMap.any fun entry => overlapped skips [entry.remnant]⟩) := by
  induction vmMap generalizing full b with
  | nil =>
      constructor
      · intro h
        obtain ⟨entry, hentry, -⟩ := h
        exact absurd hentry List.not_mem_nil
      · intro _
        simp [pure, Except.pure]
  | cons entry vmMap ih =>
      obtain ⟨hfault, hcut⟩ := cutBySkips_eq skips [entry.remnant] b
      have hunfold : rebuildEntry m skips ⟨full.take (m * 2), b⟩ entry =
          cutBySkips skips ⟨[entry.remnant], b⟩ >>= fun c =>
            copyWhileRoom .scratch (m * 2) (c.newWork.map entry.withBounds) (full.take (m * 2)) >>=
              fun scratch => .ok ⟨scratch, c.anyPruned⟩ := rfl
      rw [List.foldlM_cons, hunfold, List.exists_mem_cons_iff, List.forall_mem_cons]
      by_cases hover : EntryOverruns skips entry
      · rw [hfault hover]
        constructor
        · intro _
          rfl
        · intro h
          exact absurd hover h.1
      · rw [hcut hover, ok_bind, copyWhileRoom_eq _ _ (List.length_take_le _ _),
          take_append_pieces, ok_bind, ok_bind]
        obtain ⟨hbad, hgood⟩ := ih (full ++ entryPieces skips entry)
          (b || overlapped skips [entry.remnant])
        constructor
        · intro h
          exact hbad (h.resolve_left hover)
        · intro h
          rw [List.append_assoc, Bool.or_assoc] at hgood
          exact hgood h.2

theorem rebuild_overrun (m : ℕ) {skips : List SkipRange} {vmMap : List (VmMapEntry B)}
    (h : ∃ entry ∈ vmMap, EntryOverruns skips entry) :
    rebuild m skips vmMap = .error .newWork := by
  have hfold := (foldlM_rebuildEntry m skips vmMap [] false).1 h
  rwa [List.take_nil] at hfold

theorem rebuild_eq (m : ℕ) {skips : List SkipRange} {vmMap : List (VmMapEntry B)}
    (h : ∀ entry ∈ vmMap, ¬EntryOverruns skips entry) :
    rebuild m skips vmMap = .ok ⟨(vmMap.flatMap (entryPieces skips)).take (m * 2),
      vmMap.any fun entry => overlapped skips [entry.remnant]⟩ := by
  have hfold := (foldlM_rebuildEntry m skips vmMap [] false).2 h
  rwa [List.take_nil] at hfold

/-- A map which no skip range overlaps is its own list of pieces. -/
theorem flatMap_entryPieces {skips : List SkipRange} {vmMap : List (VmMapEntry B)}
    (h : ∀ entry ∈ vmMap, overlapped skips [entry.remnant] = false) :
    vmMap.flatMap (entryPieces skips) = vmMap := by
  induction vmMap with
  | nil => rfl
  | cons entry vmMap ih =>
      rw [List.forall_mem_cons] at h
      have hentry : entryPieces skips entry = [entry] := by
        unfold entryPieces
        rw [survivors_of_not_overlapped h.1]
        rfl
      rw [List.flatMap_cons, hentry, ih h.2]
      rfl

theorem boardPruneVmMap_overrun (m : ℕ) {skips : List SkipRange} {vmMap : List (VmMapEntry B)}
    (h : ∃ entry ∈ vmMap, EntryOverruns skips entry) :
    boardPruneVmMap m skips vmMap = .error .newWork := by
  have hskips : skips ≠ [] := by
    intro hnil
    obtain ⟨entry, -, hover⟩ := h
    rw [hnil] at hover
    exact hover
  unfold boardPruneVmMap
  rw [if_neg (by simpa using hskips), rebuild_overrun m h]
  rfl

theorem boardPruneVmMap_eq {m : ℕ} {skips : List SkipRange} {vmMap : List (VmMapEntry B)}
    (hsize : vmMap.length ≤ m) (h : ∀ entry ∈ vmMap, ¬EntryOverruns skips entry) :
    boardPruneVmMap m skips vmMap = .ok ((vmMap.flatMap (entryPieces skips)).take m) := by
  have hsame (hnone : ∀ entry ∈ vmMap, overlapped skips [entry.remnant] = false) :
      .ok vmMap = (.ok ((vmMap.flatMap (entryPieces skips)).take m) :
        Except Fault (List (VmMapEntry B))) := by
    rw [flatMap_entryPieces hnone, List.take_of_length_le hsize]
  unfold boardPruneVmMap
  by_cases hskips : skips.isEmpty
  · rw [if_pos hskips]
    apply hsame
    intro entry _
    rw [List.isEmpty_iff.mp hskips]
    rfl
  · rw [if_neg hskips, rebuild_eq m h, ok_bind]
    cases hany : vmMap.any fun entry => overlapped skips [entry.remnant] with
    | true =>
        rw [if_pos rfl, copyWhileRoom_eq _ _ (Nat.zero_le _), List.nil_append, List.take_take]
        congr 2
        omega
    | false =>
        rw [if_neg Bool.false_ne_true]
        exact hsame (by simpa using hany)

def VmMapEntry.Holds (entry : VmMapEntry B) (x : UInt64) : Prop :=
  entry.start ≤ x ∧ x < entry.stop

/-- The union of the half-open segments. -/
def InMap (vmMap : List (VmMapEntry B)) (x : UInt64) : Prop := ∃ entry ∈ vmMap, entry.Holds x

def InSkips (skips : List SkipRange) (x : UInt64) : Prop :=
  ∃ sk ∈ skips, sk.start ≤ x ∧ x < sk.endPa

/-- `result` covers what the skip ranges leave of `vmMap`, in pieces of its entries. -/
structure Pruned (skips : List SkipRange) (vmMap result : List (VmMapEntry B)) : Prop where
  union : ∀ x, InMap result x ↔ InMap vmMap x ∧ ¬InSkips skips x
  copied : ∀ piece ∈ result, ∃ entry ∈ vmMap, piece.base = entry.base ∧
    entry.start ≤ piece.start ∧ piece.stop ≤ entry.stop

/-- No array is left; and when the rebuilt map fits in `vm_map`, it is the pruned map. -/
structure PruneCorrect (maxMemSegments : ℕ) (skips : List SkipRange)
    (vmMap : List (VmMapEntry B)) : Prop where
  in_bounds : ∃ result, boardPruneVmMap maxMemSegments skips vmMap = .ok result
  exact_union : ∀ r result, rebuild maxMemSegments skips vmMap = .ok r →
    r.scratch.length ≤ maxMemSegments →
    boardPruneVmMap maxMemSegments skips vmMap = .ok result → Pruned skips vmMap result

theorem holds_iff (entry : VmMapEntry B) (x : UInt64) :
    entry.Holds x ↔ x.toNat ∈ entry.remnant.seg := by
  unfold VmMapEntry.Holds
  rw [UInt64.le_iff_toNat_le, UInt64.lt_iff_toNat_lt]
  rfl

theorem inSkips_iff (skips : List SkipRange) (x : UInt64) :
    InSkips skips x ↔ ∃ sk ∈ skips.map skipSeg, x.toNat ∈ sk := by
  unfold InSkips
  simp only [UInt64.le_iff_toNat_le, UInt64.lt_iff_toNat_lt, List.mem_map, exists_exists_and_eq_and]
  rfl

theorem inMap_withBounds (entry : VmMapEntry B) (ws : List Remnant) (x : UInt64) :
    InMap (ws.map entry.withBounds) x ↔ Covered (ws.map Remnant.seg) x.toNat := by
  unfold InMap Covered
  simp only [List.mem_map, exists_exists_and_eq_and, holds_iff]
  rfl

theorem inMap_entryPieces_or (skips : List SkipRange) (entry : VmMapEntry B) (x : UInt64) :
    InMap (entryPieces skips entry) x ∨ EntryDrops skips entry x ↔
      entry.Holds x ∧ ¬InSkips skips x := by
  unfold entryPieces EntryDrops
  rw [inMap_withBounds, map_survivors, List.map_singleton, covered_cutRun_or_loses,
    covered_singleton, holds_iff, inSkips_iff]
  simp only [not_exists, not_and]

theorem proper_skipSeg {skips : List SkipRange} (h : ProperSkips skips) :
    ∀ sk ∈ skips.map skipSeg, sk.lo ≤ sk.hi := by
  intro sk hsk
  obtain ⟨s, hs, rfl⟩ := List.mem_map.mp hsk
  exact (UInt64.lt_iff_toNat_lt.mp (h s hs)).le

theorem inMap_entryPieces {skips : List SkipRange} (h : ProperSkips skips) (entry : VmMapEntry B)
    (x : UInt64) : InMap (entryPieces skips entry) x ↔
      (entry.Holds x ∧ ¬InSkips skips x) ∧ ¬EntryDrops skips entry x := by
  rw [← inMap_entryPieces_or]
  constructor
  · intro hx
    refine ⟨Or.inl hx, fun hdrop => ?_⟩
    have hkept := not_covered_of_loses (proper_skipSeg h) (List.pairwise_singleton _ _) hdrop
    unfold entryPieces at hx
    rw [inMap_withBounds, map_survivors] at hx
    exact hkept hx
  · intro hx
    exact hx.1.resolve_right hx.2

/-- The dropped addresses are the only ones that pruning can get wrong. -/
theorem union_iff {skips : List SkipRange} (h : ProperSkips skips) (vmMap : List (VmMapEntry B)) :
    (∀ x, InMap (vmMap.flatMap (entryPieces skips)) x ↔ InMap vmMap x ∧ ¬InSkips skips x) ↔
      ∀ entry ∈ vmMap, ∀ x, EntryDrops skips entry x →
        ∃ other ∈ vmMap, other.Holds x ∧ ¬EntryDrops skips other x := by
  have hpieces (x : UInt64) : InMap (vmMap.flatMap (entryPieces skips)) x ↔
      ∃ entry ∈ vmMap, InMap (entryPieces skips entry) x := by
    unfold InMap
    simp only [List.mem_flatMap]
    constructor
    · intro hx
      obtain ⟨piece, ⟨entry, hentry, hpiece⟩, hholds⟩ := hx
      exact ⟨entry, hentry, piece, hpiece, hholds⟩
    · intro hx
      obtain ⟨entry, hentry, piece, hpiece, hholds⟩ := hx
      exact ⟨piece, ⟨entry, hentry, hpiece⟩, hholds⟩
  constructor
  · intro hunion entry hentry x hdrop
    obtain ⟨hholds, hskips⟩ := (inMap_entryPieces_or skips entry x).mp (Or.inr hdrop)
    obtain ⟨other, hother, hin⟩ := (hpieces x).mp ((hunion x).mpr ⟨⟨entry, hentry, hholds⟩, hskips⟩)
    obtain ⟨⟨hholds', -⟩, hkept⟩ := (inMap_entryPieces h other x).mp hin
    exact ⟨other, hother, hholds', hkept⟩
  · intro hdropped x
    rw [hpieces]
    constructor
    · intro hx
      obtain ⟨entry, hentry, hin⟩ := hx
      obtain ⟨⟨hholds, hskips⟩, -⟩ := (inMap_entryPieces h entry x).mp hin
      exact ⟨⟨entry, hentry, hholds⟩, hskips⟩
    · intro hx
      obtain ⟨⟨entry, hentry, hholds⟩, hskips⟩ := hx
      rcases (inMap_entryPieces_or skips entry x).mpr ⟨hholds, hskips⟩ with hin | hdrop
      · exact ⟨entry, hentry, hin⟩
      · obtain ⟨other, hother, hholds', hkept⟩ := hdropped entry hentry x hdrop
        exact ⟨other, hother, (inMap_entryPieces h other x).mpr ⟨⟨hholds', hskips⟩, hkept⟩⟩

theorem entryPieces_copied {skips : List SkipRange} {entry piece : VmMapEntry B}
    (h : piece ∈ entryPieces skips entry) :
    piece.base = entry.base ∧ entry.start ≤ piece.start ∧ piece.stop ≤ entry.stop := by
  obtain ⟨w, hw, rfl⟩ := List.mem_map.mp h
  have hseg : w.seg ∈ cutRun workSize (skips.map skipSeg) [entry.remnant.seg] := by
    have hrun := map_survivors skips [entry.remnant]
    rw [List.map_singleton] at hrun
    rw [← hrun]
    exact List.mem_map_of_mem hw
  obtain ⟨p, hp, hlo, hhi⟩ := cutRun_inside hseg
  rw [List.mem_singleton.mp hp] at hlo hhi
  exact ⟨rfl, UInt64.le_iff_toNat_le.mpr hlo, UInt64.le_iff_toNat_le.mpr hhi⟩

theorem scratch_fits_iff {m : ℕ} {skips : List SkipRange} {vmMap : List (VmMapEntry B)}
    (hsize : vmMap.length ≤ m) :
    ((vmMap.flatMap (entryPieces skips)).take (m * 2)).length ≤ m ↔
      (vmMap.flatMap (entryPieces skips)).length ≤ m := by
  rw [List.length_take]
  constructor
  · intro h
    cases m with
    | zero =>
        rw [List.length_eq_zero_iff.mp (Nat.le_zero.mp hsize)]
        exact le_rfl
    | succ m => omega
  · intro h
    omega

/-- Pruning is right exactly when no entry runs out of the eight work pieces, other than by
dropping the last of them, and what is dropped lies in another entry which keeps it. -/
theorem pruneCorrect_iff (ranges : List (UInt64 × UInt64)) {maxMemSegments : ℕ}
    {vmMap : List (VmMapEntry B)} (hsize : vmMap.length ≤ maxMemSegments) :
    PruneCorrect maxMemSegments (addSkips {} ranges).skips vmMap ↔
      (∀ entry ∈ vmMap, ¬EntryOverruns (addSkips {} ranges).skips entry) ∧
        ((vmMap.flatMap (entryPieces (addSkips {} ranges).skips)).length ≤ maxMemSegments →
          ∀ entry ∈ vmMap, ∀ x, EntryDrops (addSkips {} ranges).skips entry x →
            ∃ other ∈ vmMap, other.Holds x ∧ ¬EntryDrops (addSkips {} ranges).skips other x) := by
  have hproper : ProperSkips (addSkips {} ranges).skips :=
    addSkips_proper ranges fun s hs => absurd hs List.not_mem_nil
  generalize (addSkips {} ranges).skips = skips at hproper ⊢
  constructor
  · intro h
    have hfits : ∀ entry ∈ vmMap, ¬EntryOverruns skips entry := by
      intro entry hentry hover
      obtain ⟨result, hresult⟩ := h.in_bounds
      rw [boardPruneVmMap_overrun maxMemSegments ⟨entry, hentry, hover⟩] at hresult
      cases hresult
    refine ⟨hfits, fun hcount => ?_⟩
    have hpruned := h.exact_union _ _ (rebuild_eq maxMemSegments hfits)
      ((scratch_fits_iff hsize).mpr hcount) (boardPruneVmMap_eq hsize hfits)
    rw [List.take_of_length_le hcount] at hpruned
    exact (union_iff hproper vmMap).mp hpruned.union
  · intro h
    obtain ⟨hfits, hdropped⟩ := h
    refine ⟨⟨_, boardPruneVmMap_eq hsize hfits⟩, fun r result hr hcount hresult => ?_⟩
    rw [rebuild_eq maxMemSegments hfits] at hr
    rw [boardPruneVmMap_eq hsize hfits] at hresult
    obtain rfl := Except.ok.inj hr
    obtain rfl := Except.ok.inj hresult
    have hcount' := (scratch_fits_iff hsize).mp hcount
    rw [List.take_of_length_le hcount']
    constructor
    · exact (union_iff hproper vmMap).mpr (hdropped hcount')
    · intro piece hpiece
      obtain ⟨entry, hentry, hin⟩ := List.mem_flatMap.mp hpiece
      exact ⟨entry, hentry, entryPieces_copied hin⟩

/-- With fewer than eight skip ranges no entry overruns and nothing is dropped. -/
theorem entry_fits_of_few_skips {skips : List SkipRange} (hproper : ProperSkips skips)
    (h : skips.length < workSize) (entry : VmMapEntry B) :
    ¬EntryOverruns skips entry ∧ ∀ x, ¬EntryDrops skips entry x := by
  have hroom : [entry.remnant.seg].length + (skips.map skipSeg).length ≤ workSize := by
    rw [List.length_singleton, List.length_map]
    omega
  obtain ⟨hover, hloses⟩ := fits_of_room (proper_skipSeg hproper)
    (List.pairwise_singleton _ entry.remnant.seg) hroom
  exact ⟨hover, fun x => hloses x.toNat⟩

end

/-- Eight regions of one mebibyte, reported from the top of memory downwards. -/
def descendingRanges : List (UInt64 × UInt64) :=
  [(0xF00000, 0x1000000), (0xD00000, 0xE00000), (0xB00000, 0xC00000), (0x900000, 0xA00000),
    (0x700000, 0x800000), (0x500000, 0x600000), (0x300000, 0x400000), (0x100000, 0x200000)]

theorem descending_skips_leave_new_work :
    ¬PruneCorrect 127 (addSkips {} descendingRanges).skips [⟨(), 0, 0x10000000⟩] := by
  intro h
  obtain ⟨result, hresult⟩ := h.in_bounds
  have hfault : boardPruneVmMap 127 (addSkips {} descendingRanges).skips
      [(⟨(), 0, 0x10000000⟩ : VmMapEntry Unit)] = .error .newWork := by
    rfl
  rw [hfault] at hresult
  cases hresult

theorem pruneCorrect_two_skips :
    [(⟨(), 0, 0x10000000⟩ : VmMapEntry Unit)].length ≤ 127 ∧
      PruneCorrect 127 (addSkips {} [(0x500000, 0x600000), (0x100000, 0x200000)]).skips
        [(⟨(), 0, 0x10000000⟩ : VmMapEntry Unit)] := by
  refine ⟨by decide, (pruneCorrect_iff _ (by decide)).mpr ⟨?_, ?_⟩⟩
  · intro entry _
    exact (entry_fits_of_few_skips (addSkips_proper _ fun s hs => absurd hs List.not_mem_nil)
      (by decide) entry).1
  · intro _ entry _ x hdrop
    exact absurd hdrop ((entry_fits_of_few_skips
      (addSkips_proper _ fun s hs => absurd hs List.not_mem_nil) (by decide) entry).2 x)

end BankFinder.SkipPrune
