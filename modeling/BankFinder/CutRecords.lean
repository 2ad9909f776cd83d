import Mathlib

/-!
# Records which are cut off

Records end at a separator, and a record may give an entry. Of a text only so many elements
are read, and of the entries only so many are taken. What is lost is decided by the record
in which the text is cut: by what it gives as far as it was read.
-/

namespace BankFinder.CutRecords

variable {A B : Type*}

theorem forall₂_imp_mem {R S : A → B → Prop} {l : List A} {ys : List B}
    (h : ∀ a ∈ l, ∀ b, R a b → S a b) (hR : List.Forall₂ R l ys) : List.Forall₂ S l ys := by
  have hmem : List.Forall₂ (fun a b => a ∈ l ∧ R a b) l ys := by
    rw [List.forall₂_and_left]
    exact ⟨fun _ ha => ha, hR⟩
  exact hmem.imp fun a b hab => h a hab.1 b hab.2

variable [DecidableEq A] (sep : A) (f : List A → Option B)

/-- What the records of a text give, one after the other. -/
def entries (text : List A) : List B := (text.splitOn sep).filterMap f

/-- The text up to its last separator, and the record behind it which has not ended. -/
def ended (text : List A) : List A := text.rdropWhile (· ≠ sep)
def torn (text : List A) : List A := text.rtakeWhile (· ≠ sep)

/-- Either the text fits into the buffer of `n` elements, or the part of the torn record which
was read gives what this record and all later ones should give. -/
def CutKeeps (cap n : ℕ) (text : List A) : Prop :=
  text.length ≤ n ∨
    (f (torn sep (text.take n))).toList.take
        (cap - (entries sep f (ended sep (text.take n))).length) =
      entries sep f (torn sep (text.take n) ++ text.drop n)

section
variable {f} {text : List A}

/-- The records which give an entry, beside their entries. -/
theorem forall₂_entries (text : List A) : List.Forall₂ (fun r b => f r = some b)
    ((text.splitOn sep).filter fun r => (f r).isSome) (entries sep f text) := by
  unfold entries
  induction text.splitOn sep with
  | nil => exact .nil
  | cons r rs ih =>
      cases hfound : f r with
      | none =>
          rw [List.filterMap_cons_none hfound, List.filter_cons_of_neg (by simp [hfound])]
          exact ih
      | some b =>
          rw [List.filterMap_cons_some hfound, List.filter_cons_of_pos (by simp [hfound])]
          exact .cons hfound ih

theorem eq_entries_iff {ys : List B} : ys = entries sep f text ↔
    List.Forall₂ (fun r b => f r = some b)
      ((text.splitOn sep).filter fun r => (f r).isSome) ys := by
  constructor
  · rintro rfl
    exact forall₂_entries sep text
  · intro h
    refine List.right_unique_forall₂' ?_ h (forall₂_entries sep text)
    intro r b b' hb hb'
    exact Option.some.inj (hb.symm.trans hb')

theorem entries_append_cons (text rest : List A) :
    entries sep f (text ++ sep :: rest) = entries sep f text ++ entries sep f rest := by
  rw [entries, List.splitOn_append_cons_self, List.filterMap_append, entries, entries]

theorem entries_of_notMem (h : sep ∉ text) : entries sep f text = (f text).toList := by
  rw [entries, List.splitOn_eq_singleton h]
  cases hfound : f text with
  | none => rw [List.filterMap_cons_none hfound, List.filterMap_nil, Option.toList_none]
  | some b => rw [List.filterMap_cons_some hfound, List.filterMap_nil, Option.toList_some]

theorem notMem_torn (text : List A) : sep ∉ torn sep text := by
  intro h
  exact absurd (List.mem_rtakeWhile_imp h) (by simp)

theorem ended_append_torn (text : List A) : ended sep text ++ torn sep text = text :=
  List.rdropWhile_append_rtakeWhile ..

theorem ended_eq (text : List A) : ended sep text = [] ∨ ∃ p, ended sep text = p ++ [sep] := by
  unfold ended
  induction text using List.reverseRecOn with
  | nil => exact Or.inl (List.rdropWhile_nil _)
  | append_singleton text c ih =>
      rw [List.rdropWhile_concat]
      split_ifs with hc
      · exact ih
      · rw [decide_eq_true_eq, not_not] at hc
        exact Or.inr ⟨text, by rw [hc]⟩

/-- Behind the last separator the entries start anew. -/
theorem entries_ended_append (hf : f [] = none) (text rest : List A) :
    entries sep f (ended sep text ++ rest) =
      entries sep f (ended sep text) ++ entries sep f rest := by
  rcases ended_eq sep text with h | ⟨p, h⟩
  · rw [h, entries_of_notMem sep List.not_mem_nil, hf]
    rfl
  · rw [h, List.append_assoc, List.singleton_append, entries_append_cons,
      entries_append_cons, entries_of_notMem sep List.not_mem_nil, hf]
    simp

/-- What was read of a text, and the whole text, by what stands in front of the torn record. -/
theorem entries_read (hf : f [] = none) (text : List A) :
    entries sep f text = entries sep f (ended sep text) ++ (f (torn sep text)).toList := by
  conv_lhs => rw [← ended_append_torn sep text]
  rw [entries_ended_append sep hf, entries_of_notMem sep (notMem_torn sep text)]

theorem entries_whole (hf : f [] = none) (text rest : List A) :
    entries sep f (text ++ rest) =
      entries sep f (ended sep text) ++ entries sep f (torn sep text ++ rest) := by
  rw [← entries_ended_append sep hf, ← List.append_assoc, ended_append_torn]

/-- All entries are taken exactly when the cut keeps them. -/
theorem take_entries_iff (hf : f [] = none) {cap : ℕ} (n : ℕ)
    (hcap : (entries sep f text).length ≤ cap) :
    (entries sep f (text.take n)).take cap = entries sep f text ↔ CutKeeps sep f cap n text := by
  unfold CutKeeps
  by_cases hfits : text.length ≤ n
  · rw [List.take_of_length_le hfits, List.take_of_length_le hcap]
    simp [hfits]
  · have hwhole := entries_whole sep hf (text.take n) (text.drop n)
    rw [List.take_append_drop] at hwhole
    rw [hwhole, List.length_append] at hcap
    rw [entries_read sep hf, hwhole, List.take_append, List.take_of_length_le (by omega),
      List.append_right_inj, or_iff_right hfits]

end

end BankFinder.CutRecords
