import Mathlib.Data.List.Basic
import Mathlib.Data.Prod.Lex

/-!
# Searching by preference

Candidates stand in tiers, and a tier is only looked at when all before it hold nothing. The
search returns the one at the least place: in the first tier which holds any, the first.
-/

namespace BankFinder.TieredSearch

variable {A B : Type}

/-- The first candidate of the first tier which has one. -/
def firstFound (tiers : List (List (Option B))) : Option B :=
  tiers.findSome? fun tier => tier.findSome? id

/-- At place `k.2` of tier `k.1` there is the candidate `b`. -/
def FoundAt (tiers : List (List (Option B))) (k : ℕ × ℕ) (b : B) : Prop :=
  ∃ tier, tiers[k.1]? = some tier ∧ tier[k.2]? = some (some b)

/-- The candidate at the least place. -/
def Preferred (tiers : List (List (Option B))) (b : B) : Prop :=
  ∃ k, FoundAt tiers k b ∧ ∀ k' b', FoundAt tiers k' b' → toLex k ≤ toLex k'

section
variable {tier : List (Option B)} {tiers : List (List (Option B))} {b b' : B} {k k' : ℕ × ℕ}

/-- A search through one list, by the place of its hit. -/
theorem findSome?_eq_some_iff_place {f : A → Option B} {l : List A} :
    l.findSome? f = some b ↔ ∃ i : ℕ, (∃ a, l[i]? = some a ∧ f a = some b) ∧
      ∀ j : ℕ, j < i → ∀ a, l[j]? = some a → f a = none := by
  rw [List.findSome?_eq_some_iff]
  constructor
  · intro ⟨before, a, after, hsplit, hfound, hbefore⟩
    refine ⟨before.length, ⟨a, ?_, hfound⟩, ?_⟩
    · rw [hsplit, List.getElem?_append_right (le_refl _), Nat.sub_self, List.getElem?_cons_zero]
    · intro j hj x hx
      rw [hsplit, List.getElem?_append_left hj] at hx
      exact hbefore x (List.mem_of_getElem? hx)
  · intro ⟨i, ⟨a, ha, hfound⟩, hearlier⟩
    have hsplit := List.take_append_drop i l
    rw [List.drop_eq_getElem?_toList_append, ha] at hsplit
    refine ⟨l.take i, a, l.drop (i + 1), hsplit.symm, hfound, ?_⟩
    intro x hx
    obtain ⟨j, hj⟩ := List.mem_iff_getElem?.mp hx
    rw [List.getElem?_take] at hj
    split_ifs at hj with hlt
    exact hearlier j hlt x hj

theorem FoundAt.unique (h : FoundAt tiers k b) (h' : FoundAt tiers k b') : b = b' := by
  obtain ⟨tier, htier, hb⟩ := h
  obtain ⟨tier', htier', hb'⟩ := h'
  rw [htier] at htier'
  obtain rfl := Option.some.inj htier'
  rw [hb] at hb'
  exact Option.some.inj (Option.some.inj hb')

theorem Preferred.unique (h : Preferred tiers b) (h' : Preferred tiers b') : b = b' := by
  obtain ⟨k, hk, hleast⟩ := h
  obtain ⟨k', hk', hleast'⟩ := h'
  have hsame : k = k' := toLex_inj.mp (le_antisymm (hleast k' b' hk') (hleast' k b hk))
  exact hk.unique (hsame ▸ hk')

theorem findSome?_id_none_iff :
    tier.findSome? id = none ↔ ∀ (j : ℕ) (b : B), tier[j]? ≠ some (some b) := by
  rw [List.findSome?_eq_none_iff]
  constructor
  · intro h j b hj
    have hnone := h (some b) (List.mem_of_getElem? hj)
    cases hnone
  · intro h x hx
    obtain ⟨j, hj⟩ := List.mem_iff_getElem?.mp hx
    cases x with
    | none => rfl
    | some b => exact absurd hj (h j b)

theorem firstFound_none_iff : firstFound tiers = none ↔ ∀ k b, ¬FoundAt tiers k b := by
  unfold firstFound
  rw [List.findSome?_eq_none_iff]
  constructor
  · intro h k b ⟨tier, htier, hb⟩
    exact findSome?_id_none_iff.mp (h tier (List.mem_of_getElem? htier)) k.2 b hb
  · intro h tier htier
    obtain ⟨i, hi⟩ := List.mem_iff_getElem?.mp htier
    exact findSome?_id_none_iff.mpr fun j b hj => h (i, j) b ⟨tier, hi, hj⟩

theorem preferred_of_firstFound (h : firstFound tiers = some b) : Preferred tiers b := by
  obtain ⟨i, ⟨tier, htier, hfound⟩, hearlier⟩ := findSome?_eq_some_iff_place.mp h
  obtain ⟨j, ⟨c, hc, hcb⟩, hbefore⟩ := findSome?_eq_some_iff_place.mp hfound
  obtain rfl : c = some b := hcb
  refine ⟨(i, j), ⟨tier, htier, hc⟩, ?_⟩
  intro k' b' ⟨tier', htier', hb'⟩
  rw [Prod.Lex.le_iff]
  rcases lt_trichotomy i k'.1 with hlt | heq | hgt
  · exact Or.inl hlt
  · refine Or.inr ⟨heq, ?_⟩
    rw [← heq, htier] at htier'
    obtain rfl := Option.some.inj htier'
    by_contra hlt
    exact absurd (hbefore k'.2 (Nat.lt_of_not_le hlt) _ hb') (Option.some_ne_none b')
  · exact absurd hb' (findSome?_id_none_iff.mp (hearlier k'.1 hgt tier' htier') k'.2 b')

/-- The search returns the preferred candidate, and nothing only when there is none. -/
theorem firstFound_eq_some_iff : firstFound tiers = some b ↔ Preferred tiers b := by
  constructor
  · exact preferred_of_firstFound
  · intro h
    cases hfound : firstFound tiers with
    | none =>
        obtain ⟨k, hk, -⟩ := h
        exact absurd hk (firstFound_none_iff.mp hfound k b)
    | some b' => rw [(preferred_of_firstFound hfound).unique h]

end

end BankFinder.TieredSearch
