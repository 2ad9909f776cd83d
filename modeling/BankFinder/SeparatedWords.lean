import Mathlib

/-!
# Words between separators

A line is read word by word: separators are passed over, and a word ends where the next
separator stands. The words of a line do not depend on how many separators stand between
them, or around them.
-/

namespace BankFinder.SeparatedWords

variable {A : Type*} {sep : A → Bool}

/-- The non-empty pieces between the separators. -/
def words (sep : A → Bool) (p : List A) : List (List A) := (p.splitOnP sep).filter (· ≠ [])

section
variable {a : A} {p s w rest : List A}

@[simp] theorem words_nil : words sep [] = [] := by
  simp [words]

theorem words_cons_of_sep (h : sep a = true) (p : List A) : words sep (a :: p) = words sep p := by
  simp [words, List.splitOnP_cons_eq_if_modifyHead, h]

theorem words_append_of_seps (h : ∀ c ∈ s, sep c = true) (p : List A) :
    words sep (s ++ p) = words sep p := by
  induction s with
  | nil => rfl
  | cons c s ih =>
      rw [List.forall_mem_cons] at h
      rw [List.cons_append, words_cons_of_sep h.1, ih h.2]

theorem words_dropWhile (p : List A) : words sep (p.dropWhile sep) = words sep p := by
  have hseps : ∀ c ∈ p.takeWhile sep, sep c = true := fun c hc => List.mem_takeWhile_imp hc
  have happend := words_append_of_seps hseps (p.dropWhile sep)
  rw [List.takeWhile_append_dropWhile] at happend
  exact happend.symm

/-- A word in front of a separator, or of nothing. -/
theorem words_append (hne : w ≠ []) (hw : ∀ c ∈ w, sep c = false)
    (hrest : ∀ c ∈ rest.head?, sep c = true) : words sep (w ++ rest) = w :: words sep rest := by
  cases rest with
  | nil =>
      have hsplit := List.splitOnP_eq_singleton hw
      simp [words, hsplit, hne]
  | cons c rest =>
      have hc : sep c = true := hrest c rfl
      have hsplit := List.splitOnP_append_cons_of_forall_mem hw c hc rest
      rw [words_cons_of_sep hc]
      simp [words, hsplit, hne]

theorem words_append_cons (x : List A) (h : sep a = true) (y : List A) :
    words sep (x ++ a :: y) = words sep x ++ words sep y := by
  unfold words
  rw [List.splitOnP_append_cons x y h, List.filter_append]

theorem words_of_seps (h : ∀ c ∈ s, sep c = true) : words sep s = [] := by
  have happend := words_append_of_seps h []
  rw [List.append_nil] at happend
  rw [happend, words_nil]

theorem words_append_seps (p : List A) (h : ∀ c ∈ s, sep c = true) :
    words sep (p ++ s) = words sep p := by
  cases s with
  | nil => rw [List.append_nil]
  | cons c s =>
      obtain ⟨hc, hs⟩ := List.forall_mem_cons.mp h
      rw [words_append_cons p hc, words_of_seps hs, List.append_nil]

/-- A line which does not begin with a separator begins with its first word. -/
theorem exists_word (hne : p ≠ []) (hhead : ∀ c ∈ p.head?, sep c = false) : ∃ w rest,
    p = w ++ rest ∧ w ≠ [] ∧ (∀ c ∈ w, sep c = false) ∧ (∀ c ∈ rest.head?, sep c = true) ∧
      words sep p = w :: words sep rest := by
  have hfirst : p.takeWhile (fun c => !sep c) ≠ [] := by
    cases p with
    | nil => exact absurd rfl hne
    | cons c p =>
        have hc : sep c = false := hhead c rfl
        simp [hc]
  have hword : ∀ c ∈ p.takeWhile (fun c => !sep c), sep c = false := by
    intro c hc
    simpa using List.mem_takeWhile_imp hc
  have hstop : ∀ c ∈ (p.dropWhile fun c => !sep c).head?, sep c = true := by
    intro c hc
    have hnot := List.head?_dropWhile_not (fun c => !sep c) p
    rw [hc] at hnot
    simpa using hnot
  have hsplit := List.takeWhile_append_dropWhile (p := fun c => !sep c) (l := p)
  have happend := words_append hfirst hword hstop
  rw [hsplit] at happend
  exact ⟨_, _, hsplit.symm, hfirst, hword, hstop, happend⟩

end

end BankFinder.SeparatedWords
