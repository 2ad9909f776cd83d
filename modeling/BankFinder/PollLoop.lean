import Mathlib

/-!
# Loops which poll for an answer

A prompt reads one event after another. Each event either leads to a new state
or ends the prompt with a result, and the events behind it stay unread. What was
read is a list of events which go on and the one which ended the prompt.
-/

namespace BankFinder.PollLoop

variable {S P A : Type}

/-- The result and the unread events; `none` when the events are used up first. -/
def pollLoop (step : S → P → S ⊕ A) : S → List P → Option (A × List P)
  | _, [] => none
  | s, p :: ps =>
      match step s p with
      | .inl s' => pollLoop step s' ps
      | .inr a => some (a, ps)

/-- The events which are read. -/
def heard (step : S → P → S ⊕ A) : S → List P → List P
  | _, [] => []
  | s, p :: ps =>
      match step s p with
      | .inl s' => p :: heard step s' ps
      | .inr _ => [p]

/-- From `s` the events lead to `s'` without an end. -/
inductive Continues (step : S → P → S ⊕ A) : S → List P → S → Prop
  | nil (s : S) : Continues step s [] s
  | cons {s s' s'' : S} {p : P} {ps : List P} :
      step s p = .inl s' → Continues step s' ps s'' → Continues step s (p :: ps) s''

variable {step : S → P → S ⊕ A}

theorem pollLoop_go {s s' : S} {p : P} (ps : List P) (h : step s p = .inl s') :
    pollLoop step s (p :: ps) = pollLoop step s' ps := by
  rw [pollLoop, h]

theorem pollLoop_end {s : S} {p : P} {a : A} (ps : List P) (h : step s p = .inr a) :
    pollLoop step s (p :: ps) = some (a, ps) := by
  rw [pollLoop, h]

theorem pollLoop_of_ends {s s' : S} {p : P} {a : A} {events rest : List P}
    (h : Continues step s events s') (hend : step s' p = .inr a) :
    pollLoop step s (events ++ p :: rest) = some (a, rest) := by
  induction h with
  | nil s => exact pollLoop_end rest hend
  | cons hstep _ ih =>
      rw [List.cons_append, pollLoop_go _ hstep]
      exact ih hend

theorem heard_of_ends {s s' : S} {p : P} {a : A} {events rest : List P}
    (h : Continues step s events s') (hend : step s' p = .inr a) :
    heard step s (events ++ p :: rest) = events ++ [p] := by
  induction h with
  | nil s =>
      rw [List.nil_append, heard, hend, List.nil_append]
  | cons hstep _ ih =>
      rw [List.cons_append, heard, hstep, List.cons_append, ← ih hend]

/-- A prompt ends with the first event which gives a result. -/
theorem pollLoop_eq_some_iff {s : S} {a : A} {ps rest : List P} :
    pollLoop step s ps = some (a, rest) ↔
      ∃ events p s', ps = events ++ p :: rest ∧ Continues step s events s' ∧
        step s' p = .inr a := by
  constructor
  · intro h
    induction ps generalizing s with
    | nil => exact absurd h (Option.some_ne_none _).symm
    | cons p ps ih =>
        rw [pollLoop] at h
        cases hstep : step s p with
        | inl s' =>
            rw [hstep] at h
            obtain ⟨events, q, s'', rfl, hcont, hend⟩ := ih h
            exact ⟨p :: events, q, s'', rfl, .cons hstep hcont, hend⟩
        | inr b =>
            rw [hstep] at h
            obtain ⟨rfl, rfl⟩ := Prod.mk.inj (Option.some.inj h)
            exact ⟨[], p, s, rfl, .nil s, hstep⟩
  · rintro ⟨events, p, s', rfl, hcont, hend⟩
    exact pollLoop_of_ends hcont hend

/-- Events which go on from every state lead to the state of a fold. -/
theorem continues_foldl {f : S → P → S} {ps : List P} (s : S)
    (h : ∀ p ∈ ps, ∀ s, step s p = .inl (f s p)) : Continues step s ps (ps.foldl f s) := by
  induction ps generalizing s with
  | nil => exact .nil s
  | cons p ps ih =>
      rw [List.forall_mem_cons] at h
      exact .cons (h.1 s) (ih (f s p) h.2)

/-- Whatever goes on in some state of the loop has a property that all such events have. -/
theorem Continues.forall_mem {q : P → Prop} {s s' : S} {ps : List P}
    (h : Continues step s ps s') (hq : ∀ s s' p, step s p = .inl s' → q p) : ∀ p ∈ ps, q p := by
  induction h with
  | nil s => exact fun p hp => absurd hp List.not_mem_nil
  | cons hstep _ ih => exact List.forall_mem_cons.mpr ⟨hq _ _ _ hstep, ih⟩

/-- The state reached is the one of a fold over the events. -/
theorem Continues.eq_foldl {f : S → P → S} {s s' : S} {ps : List P}
    (h : Continues step s ps s') (hf : ∀ s s' p, step s p = .inl s' → s' = f s p) :
    s' = ps.foldl f s := by
  induction h with
  | nil s => rfl
  | cons hstep _ ih =>
      rw [List.foldl_cons, ← hf _ _ _ hstep]
      exact ih

end BankFinder.PollLoop
