import Mathlib

/-!
# Sets of strings behind one another

The strings of a set stand one behind the other, each with a zero behind it, and one more zero ends
the set. No string is empty. A set without strings consists of two zeros. Therefore the first two
zeros which stand side by side are the end of the set.
-/

namespace BankFinder.StringSets

variable {A : Type} [Zero A]

/-- A string without its zero. -/
structure Text (A : Type) [Zero A] where
  chars : List A
  nonempty : chars ≠ []
  plain : ∀ c ∈ chars, c ≠ 0

/-- Each string with its zero. -/
def terminated (texts : List (Text A)) : List A := texts.flatMap fun t => t.chars ++ [0]

def stringSet : List (Text A) → List A
  | [] => [0, 0]
  | t :: texts => terminated (t :: texts) ++ [0]

/-- Two zeros side by side. -/
def Ends (a b : A) : Prop := a = 0 ∧ b = 0

@[simp] theorem terminated_nil : terminated ([] : List (Text A)) = [] := rfl

theorem terminated_cons (t : Text A) (texts : List (Text A)) :
    terminated (t :: texts) = t.chars ++ 0 :: terminated texts := by
  unfold terminated
  rw [List.flatMap_cons, List.append_assoc]
  rfl

/-- Where a string of a set stands. -/
theorem stringSet_of_append (before : List (Text A)) (t : Text A) (after : List (Text A)) :
    ∃ more, stringSet (before ++ t :: after) = terminated before ++ (t.chars ++ [0] ++ more) := by
  refine ⟨terminated after ++ [0], ?_⟩
  have hset : stringSet (before ++ t :: after) = terminated (before ++ t :: after) ++ [0] := by
    cases before <;> rfl
  rw [hset]
  unfold terminated
  simp

/-- The strings with their zeros end with a zero. -/
theorem terminated_concat (t : Text A) (texts : List (Text A)) :
    ∃ chars, terminated (t :: texts) = chars ++ [0] := by
  induction texts generalizing t with
  | nil => exact ⟨t.chars, by rw [terminated_cons, terminated_nil]⟩
  | cons t' texts ih =>
      obtain ⟨chars, hchars⟩ := ih t'
      exact ⟨t.chars ++ 0 :: chars, by rw [terminated_cons, hchars, List.append_assoc]; rfl⟩

/-- Behind the zero of a string stands the next string. -/
theorem terminated_chain (texts : List (Text A)) :
    (terminated texts).IsChain fun a b => ¬Ends a b := by
  induction texts with
  | nil => exact List.isChain_nil
  | cons t texts ih =>
      have hchars : t.chars.IsChain fun a b => ¬Ends a b := by
        rw [List.isChain_iff_getElem]
        intro i hi hends
        exact t.plain _ (List.getElem_mem _) hends.1
      have hzero : (0 :: terminated texts).IsChain fun a b => ¬Ends a b := by
        rw [List.isChain_cons]
        refine ⟨?_, ih⟩
        intro y hy hends
        cases texts with
        | nil => exact absurd hy (by simp)
        | cons t' texts =>
            obtain ⟨c, chars, hc⟩ := List.exists_cons_of_ne_nil t'.nonempty
            rw [terminated_cons, hc, List.cons_append, List.head?_cons,
              Option.mem_some_iff] at hy
            exact t'.plain c (hc ▸ List.mem_cons_self) (hy.trans hends.2)
      rw [terminated_cons, List.isChain_append]
      refine ⟨hchars, hzero, ?_⟩
      intro x hx y _ hends
      exact t.plain x (List.mem_of_mem_getLast? hx) hends.1

/-- The end of a set are the first two zeros side by side. -/
theorem stringSet_split (texts : List (Text A)) :
    ∃ inner, stringSet texts = inner ++ [0, 0] ∧
      (inner ++ [0]).IsChain fun a b => ¬Ends a b := by
  cases texts with
  | nil => exact ⟨[], rfl, List.isChain_singleton 0⟩
  | cons t texts =>
      obtain ⟨inner, hinner⟩ := terminated_concat t texts
      refine ⟨inner, ?_, hinner ▸ terminated_chain (t :: texts)⟩
      rw [stringSet, hinner, List.append_assoc]
      rfl

end BankFinder.StringSets
