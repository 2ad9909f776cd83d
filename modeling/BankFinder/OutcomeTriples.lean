import Mathlib

/-!
# Triples for computations which can fail

A computation takes a state to an answer or an error and the state after it. A triple
says what holds of the answer and the state when it succeeds and what holds of the
state when it does not. The rules follow the ways in which computations are put
together, so the proof about a program has the shape of the program.
-/

namespace BankFinder.OutcomeTriples

variable {σ ε ε' α β : Type*}

/-- A state-passing computation with an answer or an error. -/
abbrev Outcome (σ ε α : Type*) := σ → Except ε α × σ

/-- From a state with `P` an answer comes with `Q`, and an error leaves a state with `E`. -/
structure Triple (P : σ → Prop) (x : Outcome σ ε α) (Q : α → σ → Prop) (E : σ → Prop) : Prop where
  ok : ∀ {s a s'}, P s → x s = (.ok a, s') → Q a s'
  error : ∀ {s e s'}, P s → x s = (.error e, s') → E s'

/-- `I` holds afterwards in any case, and `Q` of the answer. -/
abbrev Maintains (I : σ → Prop) (x : Outcome σ ε α) (Q : α → Prop) : Prop :=
  Triple I x (fun a s => I s ∧ Q a) I

section
variable {P P' : σ → Prop} {Q Q' : α → σ → Prop} {E E' : σ → Prop} {x : Outcome σ ε α}

theorem Triple.conseq (h : Triple P x Q E) (hP : ∀ s, P' s → P s) (hQ : ∀ a s, Q a s → Q' a s)
    (hE : ∀ s, E s → E' s) : Triple P' x Q' E' :=
  ⟨fun hs hrun => hQ _ _ (h.ok (hP _ hs) hrun), fun hs hrun => hE _ (h.error (hP _ hs) hrun)⟩

theorem Triple.answer (h : ∀ s, P s → ∃ a, x s = (.ok a, s) ∧ Q a s) : Triple P x Q E := by
  constructor
  · intro s a s' hs hrun
    obtain ⟨b, hb, hQ⟩ := h s hs
    rw [hb] at hrun
    cases hrun
    exact hQ
  · intro s e s' hs hrun
    obtain ⟨b, hb, -⟩ := h s hs
    rw [hb] at hrun
    cases hrun

theorem Triple.refuse (h : ∀ s, P s → ∃ e, x s = (.error e, s) ∧ E s) : Triple P x Q E := by
  constructor
  · intro s a s' hs hrun
    obtain ⟨e, he, -⟩ := h s hs
    rw [he] at hrun
    cases hrun
  · intro s e s' hs hrun
    obtain ⟨e', he, hE⟩ := h s hs
    rw [he] at hrun
    cases hrun
    exact hE

/-- What holds of the state after the computation, whatever its outcome. -/
theorem Triple.after {I : σ → Prop} (h : Triple P x (fun _ s => I s) I) {s : σ} (hs : P s) :
    I (x s).2 := by
  rcases hrun : x s with ⟨e | a, s'⟩
  · exact h.error hs hrun
  · exact h.ok hs hrun

theorem Triple.of_after {I : σ → Prop} (h : ∀ s, P s → I (x s).2) :
    Triple P x (fun _ s => I s) I := by
  constructor
  · intro s a s' hs hrun
    have hafter := h s hs
    rwa [hrun] at hafter
  · intro s e s' hs hrun
    have hafter := h s hs
    rwa [hrun] at hafter

end

/-- One computation after the other; an error ends the sequence. -/
def seq (x : Outcome σ ε α) (f : α → Outcome σ ε β) : Outcome σ ε β := fun s =>
  match x s with
  | (.ok a, s') => f a s'
  | (.error e, s') => (.error e, s')

theorem Triple.seq {P : σ → Prop} {Q : α → σ → Prop} {R : β → σ → Prop} {E : σ → Prop}
    {x : Outcome σ ε α} {f : α → Outcome σ ε β} (hx : Triple P x Q E)
    (hf : ∀ a, Triple (Q a) (f a) R E) : Triple P (OutcomeTriples.seq x f) R E := by
  constructor
  · intro s b s' hs hrun
    unfold OutcomeTriples.seq at hrun
    rcases hstep : x s with ⟨e | a, t⟩
    · rw [hstep] at hrun
      cases hrun
    · rw [hstep] at hrun
      exact (hf a).ok (hx.ok hs hstep) hrun
  · intro s e s' hs hrun
    unfold OutcomeTriples.seq at hrun
    rcases hstep : x s with ⟨e | a, t⟩
    · rw [hstep] at hrun
      cases hrun
      exact hx.error hs hstep
    · rw [hstep] at hrun
      exact (hf a).error (hx.ok hs hstep) hrun

/-- An invariant through a sequence; what is known of the first answer helps the second part. -/
theorem Maintains.seq {I : σ → Prop} {Q : α → Prop} {R : β → Prop} {x : Outcome σ ε α}
    {f : α → Outcome σ ε β} (hx : Maintains I x Q) (hf : ∀ a, Q a → Maintains I (f a) R) :
    Maintains I (OutcomeTriples.seq x f) R := by
  refine Triple.seq hx fun a => ?_
  constructor
  · intro s b s' hs hrun
    exact (hf a hs.2).ok hs.1 hrun
  · intro s e s' hs hrun
    exact (hf a hs.2).error hs.1 hrun

/-- A computation whose outcome is not looked at. -/
def discard (x : Outcome σ ε α) : Outcome σ ε' Unit := fun s => (.ok (), (x s).2)

theorem Maintains.discard {I : σ → Prop} {Q : α → Prop} {x : Outcome σ ε α}
    (hx : Maintains I x Q) : Maintains I (OutcomeTriples.discard x : Outcome σ ε' Unit)
      fun _ => True := by
  constructor
  · intro s a s' hs hrun
    cases hrun
    exact ⟨(hx.conseq (fun _ h => h) (fun _ _ h => h.1) fun _ h => h).after hs, trivial⟩
  · intro s e s' _ hrun
    cases hrun

/-- An error is handled by another computation, and comes out under another name. -/
def recover (x : Outcome σ ε α) (undo : Outcome σ ε' Unit) (rename : ε → ε') : Outcome σ ε' α :=
  fun s => match x s with
    | (.ok a, s') => (.ok a, s')
    | (.error e, s') => (.error (rename e), (undo s').2)

theorem Maintains.recover {I : σ → Prop} {Q : α → Prop} {x : Outcome σ ε α}
    {undo : Outcome σ ε' Unit} {rename : ε → ε'} (hx : Maintains I x Q)
    (hundo : Maintains I undo fun _ => True) :
    Maintains I (OutcomeTriples.recover x undo rename) Q := by
  constructor
  · intro s a s' hs hrun
    unfold OutcomeTriples.recover at hrun
    rcases hstep : x s with ⟨e | b, t⟩
    · rw [hstep] at hrun
      cases hrun
    · rw [hstep] at hrun
      cases hrun
      exact hx.ok hs hstep
  · intro s e s' hs hrun
    unfold OutcomeTriples.recover at hrun
    rcases hstep : x s with ⟨e | b, t⟩
    · rw [hstep] at hrun
      cases hrun
      exact (hundo.conseq (fun _ h => h) (fun _ _ h => h.1) fun _ h => h).after
        (hx.error hs hstep)
    · rw [hstep] at hrun
      cases hrun

end BankFinder.OutcomeTriples
