import Mathlib

/-!
# Loops which may not end

Each turn of a loop leads to a new state, or ends the loop with a result. With fuel the loop is a
function, and it returns a result when some fuel is enough. It does so when every turn lowers a
measure; it does not when a state leads back to itself.
-/

namespace BankFinder.HaltingLoop

variable {S R : Type*}

def loop (turn : S → S ⊕ R) : ℕ → S → Option R
  | 0, _ => none
  | fuel + 1, s =>
      match turn s with
      | .inl s' => loop turn fuel s'
      | .inr r => some r

def Returns (turn : S → S ⊕ R) (s : S) (r : R) : Prop := ∃ fuel, loop turn fuel s = some r

def Halts (turn : S → S ⊕ R) (s : S) : Prop := ∃ r, Returns turn s r

/-- Some number of turns leads from the one state to the other. -/
def Goes (turn : S → S ⊕ R) : S → S → Prop := Relation.ReflTransGen fun s s' => turn s = .inl s'

section
variable {turn : S → S ⊕ R} {s s' s'' : S} {r r' : R}

theorem loop_go (h : turn s = .inl s') (fuel : ℕ) :
    loop turn (fuel + 1) s = loop turn fuel s' := by
  rw [loop, h]

theorem loop_stop (h : turn s = .inr r) (fuel : ℕ) : loop turn (fuel + 1) s = some r := by
  rw [loop, h]

/-- More fuel does not change the result. -/
theorem loop_more {fuel : ℕ} (h : loop turn fuel s = some r) (more : ℕ) :
    loop turn (fuel + more) s = some r := by
  induction fuel generalizing s with
  | zero => exact absurd h (Option.some_ne_none r).symm
  | succ fuel ih =>
      rw [Nat.succ_add]
      cases hturn : turn s with
      | inl s' =>
          rw [loop_go hturn] at h ⊢
          exact ih h
      | inr r' =>
          rw [loop_stop hturn] at h ⊢
          exact h

theorem Returns.unique (h : Returns turn s r) (h' : Returns turn s r') : r = r' := by
  obtain ⟨fuel, hr⟩ := h
  obtain ⟨fuel', hr'⟩ := h'
  have hsame := loop_more hr fuel'
  rw [Nat.add_comm, loop_more hr' fuel] at hsame
  exact (Option.some.inj hsame).symm

theorem returns_of_stop (h : turn s = .inr r) : Returns turn s r := ⟨1, loop_stop h 0⟩

theorem returns_go_iff (h : turn s = .inl s') : Returns turn s r ↔ Returns turn s' r := by
  constructor
  · intro hr
    obtain ⟨fuel, hloop⟩ := hr
    cases fuel with
    | zero => exact absurd hloop (Option.some_ne_none r).symm
    | succ fuel =>
        rw [loop_go h] at hloop
        exact ⟨fuel, hloop⟩
  · intro hr
    obtain ⟨fuel, hloop⟩ := hr
    exact ⟨fuel + 1, by rw [loop_go h, hloop]⟩

theorem goes_refl (turn : S → S ⊕ R) (s : S) : Goes turn s s := Relation.ReflTransGen.refl

theorem goes_step (h : turn s = .inl s') (hrest : Goes turn s' s'') : Goes turn s s'' :=
  Relation.ReflTransGen.head h hrest

theorem Goes.trans (h : Goes turn s s') (h' : Goes turn s' s'') : Goes turn s s'' :=
  Relation.ReflTransGen.trans h h'

theorem Goes.returns_iff (h : Goes turn s s') : Returns turn s r ↔ Returns turn s' r := by
  induction h with
  | refl => exact Iff.rfl
  | tail _ hturn ih => exact ih.trans (returns_go_iff hturn)

theorem Goes.halts_iff (h : Goes turn s s') : Halts turn s ↔ Halts turn s' := by
  unfold Halts
  simp only [h.returns_iff]

/-- A measure which every turn lowers bounds the fuel. What the turns keep holds where the loop
ends. -/
theorem loop_of_measure {Inv : S → Prop} {Q : R → Prop} (measure : S → ℕ)
    (hgo : ∀ s s', Inv s → turn s = .inl s' → Inv s' ∧ measure s' < measure s)
    (hstop : ∀ s r, Inv s → turn s = .inr r → Q r) (hs : Inv s) {fuel : ℕ}
    (hfuel : measure s < fuel) : ∃ r, loop turn fuel s = some r ∧ Q r := by
  induction fuel generalizing s with
  | zero => exact absurd hfuel (Nat.not_lt_zero _)
  | succ fuel ih =>
      cases hturn : turn s with
      | inl s' =>
          obtain ⟨hs', hlt⟩ := hgo s s' hs hturn
          rw [loop_go hturn]
          exact ih hs' (by omega)
      | inr r => exact ⟨r, loop_stop hturn fuel, hstop s r hs hturn⟩

/-- A turn which changes nothing is taken for ever. -/
theorem not_halts_of_stuck (h : turn s = .inl s) : ¬Halts turn s := by
  have hnone : ∀ fuel, loop turn fuel s = none := by
    intro fuel
    induction fuel with
    | zero => rfl
    | succ fuel ih => rw [loop_go h, ih]
  intro hhalts
  obtain ⟨r, fuel, hr⟩ := hhalts
  rw [hnone fuel] at hr
  exact Option.some_ne_none r hr.symm

end

/-- A part of a run which leads on to `s'`, or in which the loop ends, or hangs. -/
def Leads (turn : S → S ⊕ R) (s s' : S) : Option (Option R) → Prop
  | none => Goes turn s s'
  | some none => ¬Halts turn s
  | some (some r) => Returns turn s r

section
variable {turn : S → S ⊕ R} {s s' s'' : S} {e e' : Option (Option R)} {r : R}

theorem Leads.of_goes (h : Goes turn s s') (h' : Leads turn s' s'' e) : Leads turn s s'' e := by
  match e with
  | none => exact h.trans h'
  | some none => exact fun hhalts => h' (h.halts_iff.mp hhalts)
  | some (some r) => exact h.returns_iff.mpr h'

/-- One part after the other: the first which does not lead on decides. -/
theorem Leads.append (h : Leads turn s s' e) (h' : Leads turn s' s'' e') :
    Leads turn s s'' (e.or e') := by
  match e with
  | none => exact h'.of_goes h
  | some none => exact h
  | some (some r) => exact h

theorem leads_go (h : turn s = .inl s') : Leads turn s s' none := goes_step h (goes_refl turn s')

theorem Leads.halts_iff (h : Leads turn s s' e) (hstop : Halts turn s') :
    Halts turn s ↔ e ≠ some none := by
  match e with
  | none => exact iff_of_true ((Goes.halts_iff h).mpr hstop) (by simp)
  | some none => exact iff_of_false h (by simp)
  | some (some r) => exact iff_of_true ⟨r, h⟩ (by simp)

end

/-- A failure ends the loop. -/
def failing {E : Type*} : Except E (S ⊕ R) → S ⊕ Except E R
  | .ok (.inl s) => .inl s
  | .ok (.inr r) => .inr (.ok r)
  | .error e => .inr (.error e)

section
variable {E : Type*} (s : S) (r : R)

@[simp] theorem failing_go : failing (.ok (.inl s) : Except E (S ⊕ R)) = .inl s := rfl

theorem failing_eq_inl_iff {x : Except E (S ⊕ R)} {s : S} :
    failing x = .inl s ↔ x = .ok (.inl s) := by
  constructor
  · intro h
    match x with
    | .ok (.inl s') =>
        obtain rfl := Sum.inl.inj h
        rfl
    | .ok (.inr r) => exact absurd h Sum.inr_ne_inl
    | .error e => exact absurd h Sum.inr_ne_inl
  · intro h
    rw [h]
    rfl

@[simp] theorem failing_stop : failing (.ok (.inr r) : Except E (S ⊕ R)) = .inr (.ok r) := rfl

end

end BankFinder.HaltingLoop
