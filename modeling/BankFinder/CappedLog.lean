import Mathlib

/-!
# Logs of distinct entries with a capacity

A fixed array which is filled from the front: an entry which is already present
is not stored again, and an entry which no longer fits is dropped silently.
Nothing is lost as long as the distinct entries fit, or the log is not full.
-/

namespace BankFinder.CappedLog

variable {A : Type*} [DecidableEq A]

def record (cap : ℕ) (xs : List A) (x : A) : List A :=
  if x ∈ xs then xs else if xs.length < cap then xs ++ [x] else xs

def recordAll (cap : ℕ) (xs : List A) (ys : List A) : List A := ys.foldl (record cap) xs

section
variable {cap : ℕ} {xs ys : List A} {x y : A}

theorem mem_record_of_mem (x : A) (h : y ∈ xs) : y ∈ record cap xs x := by
  unfold record
  split_ifs
  · exact h
  · exact List.mem_append_left _ h
  · exact h

theorem mem_of_mem_record (h : y ∈ record cap xs x) : y ∈ xs ∨ y = x := by
  unfold record at h
  split_ifs at h
  · exact Or.inl h
  · rcases List.mem_append.mp h with h | h
    · exact Or.inl h
    · exact Or.inr (List.mem_singleton.mp h)
  · exact Or.inl h

theorem mem_record_or_full (cap : ℕ) (xs : List A) (x : A) :
    x ∈ record cap xs x ∨ cap ≤ (record cap xs x).length := by
  unfold record
  split_ifs with hmem hroom
  · exact Or.inl hmem
  · exact Or.inl (List.mem_append_right _ (List.mem_singleton_self x))
  · exact Or.inr (Nat.le_of_not_lt hroom)

theorem length_le_record (cap : ℕ) (xs : List A) (x : A) :
    xs.length ≤ (record cap xs x).length := by
  unfold record
  split_ifs
  · exact le_rfl
  · rw [List.length_append]
    exact Nat.le_add_right _ _
  · exact le_rfl

theorem record_nodup (h : xs.Nodup) (cap : ℕ) (x : A) : (record cap xs x).Nodup := by
  unfold record
  split_ifs with hmem
  · exact h
  · refine h.append (List.nodup_singleton x) ?_
    rw [List.disjoint_singleton]
    exact hmem
  · exact h

theorem mem_recordAll_of_mem (ys : List A) (h : y ∈ xs) : y ∈ recordAll cap xs ys := by
  induction ys generalizing xs with
  | nil => exact h
  | cons z ys ih => exact ih (mem_record_of_mem z h)

theorem length_le_recordAll (cap : ℕ) (xs ys : List A) :
    xs.length ≤ (recordAll cap xs ys).length := by
  induction ys generalizing xs with
  | nil => exact le_rfl
  | cons z ys ih => exact (length_le_record cap xs z).trans (ih (record cap xs z))

theorem mem_of_mem_recordAll (h : y ∈ recordAll cap xs ys) : y ∈ xs ∨ y ∈ ys := by
  induction ys generalizing xs with
  | nil => exact Or.inl h
  | cons z ys ih =>
      rcases ih h with hrec | hys
      · rcases mem_of_mem_record hrec with hxs | rfl
        · exact Or.inl hxs
        · exact Or.inr List.mem_cons_self
      · exact Or.inr (List.mem_cons_of_mem z hys)

/-- Unless the log is full in the end, it holds every entry offered to it. -/
theorem mem_recordAll_or_full (cap : ℕ) (xs : List A) (h : y ∈ ys) :
    y ∈ recordAll cap xs ys ∨ cap ≤ (recordAll cap xs ys).length := by
  induction ys generalizing xs with
  | nil => exact absurd h List.not_mem_nil
  | cons z ys ih =>
      rcases List.mem_cons.mp h with rfl | h
      · rcases mem_record_or_full cap xs y with hmem | hfull
        · exact Or.inl (mem_recordAll_of_mem ys hmem)
        · exact Or.inr (hfull.trans (length_le_recordAll cap _ ys))
      · exact ih (record cap xs z) h

theorem recordAll_nodup (h : xs.Nodup) (cap : ℕ) (ys : List A) : (recordAll cap xs ys).Nodup := by
  induction ys generalizing xs with
  | nil => exact h
  | cons z ys ih => exact ih (record_nodup h cap z)

/-- Nothing is dropped when the distinct entries fit. -/
theorem mem_recordAll_of_fits (hfits : ys.toFinset.card ≤ cap) (h : y ∈ ys) :
    y ∈ recordAll cap [] ys := by
  rcases mem_recordAll_or_full cap [] h with hmem | hfull
  · exact hmem
  · by_contra hnot
    have hsub : (recordAll cap [] ys).toFinset ⊂ ys.toFinset := by
      rw [Finset.ssubset_iff_of_subset]
      · exact ⟨y, List.mem_toFinset.mpr h, fun hin => hnot (List.mem_toFinset.mp hin)⟩
      · intro z hz
        rcases mem_of_mem_recordAll (List.mem_toFinset.mp hz) with hnil | hys
        · exact absurd hnil List.not_mem_nil
        · exact List.mem_toFinset.mpr hys
    have hcard := Finset.card_lt_card hsub
    rw [List.toFinset_card_of_nodup (recordAll_nodup List.nodup_nil cap ys)] at hcard
    omega

/-- With room for all of them, the log holds the entries in the order in which they came first. -/
theorem recordAll_eq_eraseDups (hfits : ys.toFinset.card ≤ cap) :
    recordAll cap [] ys = ys.eraseDups := by
  induction ys using List.reverseRecOn with
  | nil => rfl
  | append_singleton ys y ih =>
      have hsub : ys.toFinset ⊆ (ys ++ [y]).toFinset := by
        rw [List.toFinset_append]
        exact Finset.subset_union_left
      have hbefore := ih ((Finset.card_le_card hsub).trans hfits)
      have hlast : recordAll cap [] (ys ++ [y]) = record cap (recordAll cap [] ys) y :=
        List.foldl_concat ..
      rw [hlast, List.eraseDups_append, ← hbefore]
      unfold record
      by_cases hy : y ∈ ys
      · have hmem : y ∈ recordAll cap [] ys := by
          rw [hbefore, List.mem_eraseDups]
          exact hy
        rw [if_pos hmem]
        simp [List.removeAll, hy]
      · have hmem : y ∉ recordAll cap [] ys := by
          rw [hbefore, List.mem_eraseDups]
          exact hy
        have hlength : (recordAll cap [] ys).length = ys.toFinset.card := by
          rw [← List.toFinset_card_of_nodup (recordAll_nodup List.nodup_nil cap ys), hbefore]
          congr 1
          ext z
          simp
        have hcard : (ys ++ [y]).toFinset.card = ys.toFinset.card + 1 := by
          have hinsert : (ys ++ [y]).toFinset = insert y ys.toFinset := by
            ext z
            simp
          rw [hinsert, Finset.card_insert_of_notMem (by simpa using hy)]
        rw [if_neg hmem, if_pos (by omega)]
        simp [List.removeAll, hy, List.eraseDups_cons]

end

/-- The room which an entry needs depends on the entry, and is tested before the entry is looked
for. -/
def recordFitting (fits : List A → A → Bool) (xs : List A) (x : A) : List A :=
  if fits xs x then if x ∈ xs then xs else xs ++ [x] else xs

/-- The entry is stored if there is room. -/
def appendFitting (fits : List A → A → Bool) (xs : List A) (x : A) : List A :=
  if fits xs x then xs ++ [x] else xs

section
variable {fits : List A → A → Bool} {xs ys : List A} {x y : A}

theorem prefix_recordFitting (fits : List A → A → Bool) (xs : List A) (x : A) :
    xs <+: recordFitting fits xs x := by
  unfold recordFitting
  split_ifs
  · exact List.prefix_rfl
  · exact List.prefix_append xs [x]
  · exact List.prefix_rfl

theorem recordFitting_of_held (h : x ∈ xs ∨ fits xs x = false) : recordFitting fits xs x = xs := by
  unfold recordFitting
  rcases h with hmem | hfull
  · rw [if_pos hmem, ite_self]
  · rw [hfull]
    rfl

theorem recordFitting_of_new (h : x ∉ xs) : recordFitting fits xs x = appendFitting fits xs x := by
  unfold recordFitting appendFitting
  rw [if_neg h]

theorem recordFitting_nodup (h : xs.Nodup) (x : A) : (recordFitting fits xs x).Nodup := by
  unfold recordFitting
  split_ifs with hfits hmem
  · exact h
  · refine h.append (List.nodup_singleton x) ?_
    rw [List.disjoint_singleton]
    exact hmem
  · exact h

theorem mem_of_mem_recordFitting (h : y ∈ recordFitting fits xs x) : y ∈ xs ∨ y = x := by
  unfold recordFitting at h
  split_ifs at h
  · exact Or.inl h
  · rcases List.mem_append.mp h with h | h
    · exact Or.inl h
    · exact Or.inr (List.mem_singleton.mp h)
  · exact Or.inl h

theorem mem_recordFitting_or_not_fits (fits : List A → A → Bool) (xs : List A) (x : A) :
    x ∈ recordFitting fits xs x ∨ fits (recordFitting fits xs x) x = false := by
  cases hfits : fits xs x with
  | true =>
      left
      unfold recordFitting
      rw [if_pos hfits]
      split_ifs with hmem
      · exact hmem
      · exact List.mem_append_right _ (List.mem_singleton_self x)
  | false =>
      right
      have hsame : recordFitting fits xs x = xs := if_neg (by simp [hfits])
      rw [hsame, hfits]

theorem foldl_recordFitting_nodup (h : xs.Nodup) (ys : List A) :
    (ys.foldl (recordFitting fits) xs).Nodup := by
  induction ys generalizing xs with
  | nil => exact h
  | cons y ys ih => exact ih (recordFitting_nodup h y)

theorem mem_of_mem_foldl_recordFitting (h : y ∈ ys.foldl (recordFitting fits) xs) :
    y ∈ xs ∨ y ∈ ys := by
  induction ys generalizing xs with
  | nil => exact Or.inl h
  | cons z ys ih =>
      rcases ih h with hrec | hys
      · rcases mem_of_mem_recordFitting hrec with hxs | rfl
        · exact Or.inl hxs
        · exact Or.inr List.mem_cons_self
      · exact Or.inr (List.mem_cons_of_mem z hys)

/-- What no longer fits does not fit when the log is longer. -/
def Tightens (fits : List A → A → Bool) : Prop :=
  ∀ xs ys x, xs <+: ys → fits ys x = true → fits xs x = true

/-- An entry which was offered is in the log, or does not fit. -/
theorem mem_or_not_fits (htight : Tightens fits) (h : y ∈ ys) :
    y ∈ ys.foldl (recordFitting fits) xs ∨ fits (ys.foldl (recordFitting fits) xs) y = false := by
  induction ys using List.reverseRecOn with
  | nil => exact absurd h List.not_mem_nil
  | append_singleton ys z ih =>
      rw [List.foldl_concat]
      have hgrows := prefix_recordFitting fits (ys.foldl (recordFitting fits) xs) z
      rcases List.mem_append.mp h with hys | hz
      · rcases ih hys with hmem | hfull
        · exact Or.inl (hgrows.subset hmem)
        · right
          by_contra hnot
          rw [Bool.not_eq_false] at hnot
          rw [htight _ _ y hgrows hnot] at hfull
          exact absurd hfull Bool.noConfusion
      · rw [List.mem_singleton.mp hz]
        exact mem_recordFitting_or_not_fits fits _ z

/-- The log holds the entries which fitted, in the order in which they came first. -/
theorem foldl_recordFitting_eq (htight : Tightens fits) (ys : List A) :
    ys.foldl (recordFitting fits) [] = ys.eraseDups.foldl (appendFitting fits) [] := by
  induction ys using List.reverseRecOn with
  | nil => rfl
  | append_singleton ys y ih =>
      rw [List.foldl_concat, List.eraseDups_append, List.foldl_append, ← ih]
      by_cases hy : y ∈ ys
      · have hgone : ([y].removeAll ys).eraseDups = [] := by simp [List.removeAll, hy]
        rw [hgone, List.foldl_nil]
        exact recordFitting_of_held (mem_or_not_fits htight hy)
      · have hkept : ([y].removeAll ys).eraseDups = [y] := by
          simp [List.removeAll, hy, List.eraseDups_cons]
        have hnew : y ∉ ys.foldl (recordFitting fits) [] := by
          intro hmem
          rcases mem_of_mem_foldl_recordFitting hmem with hnil | hys
          · exact absurd hnil List.not_mem_nil
          · exact hy hys
        rw [hkept, List.foldl_cons, List.foldl_nil]
        exact recordFitting_of_new hnew

end

end BankFinder.CappedLog
