import Mathlib

/-!
# Labelled runs

A transition system whose steps carry labels, and the two rules for its runs: an
invariant kept by the steps of a kind holds after every run of such steps, and a map
which takes steps to steps takes runs to runs.
-/

namespace BankFinder.LabelledRuns

variable {S S' L : Type*}

/-- From one state to another by the steps with these labels, in order. -/
inductive Run (step : S → L → S → Prop) (s : S) : List L → S → Prop
  | nil : Run step s [] s
  | snoc {labels : List L} {l : L} {t u : S} :
      Run step s labels t → step t l u → Run step s (labels ++ [l]) u

variable {step : S → L → S → Prop} {step' : S' → L → S' → Prop}

/-- What steps with good labels keep holds after a run of them. -/
theorem Run.invariant {P : S → Prop} {Good : L → Prop}
    (hstep : ∀ s l t, Good l → P s → step s l t → P t) {s t : S} {labels : List L}
    (h : Run step s labels t) (hgood : ∀ l ∈ labels, Good l) (hs : P s) : P t := by
  induction h with
  | nil => exact hs
  | snoc _ hlast ih =>
      have hbefore := ih fun l hl => hgood l (List.mem_append_left _ hl)
      exact hstep _ _ _ (hgood _ (by simp)) hbefore hlast

/-- A run of one system is a run of any system which simulates its steps. -/
theorem Run.simulates (f : S → S') (hstep : ∀ s l t, step s l t → step' (f s) l (f t)) {s t : S}
    {labels : List L} (h : Run step s labels t) : Run step' (f s) labels (f t) := by
  induction h with
  | nil => exact .nil
  | snoc _ hlast ih => exact .snoc ih (hstep _ _ _ hlast)

section
variable {next : S → L → S} {I P : S → Prop} {G : S → L → Prop} {s : S}

theorem foldl_invariant (hI : ∀ s l, I s → I (next s l)) (labels : List L) (h : I s) :
    I (labels.foldl next s) := by
  induction labels generalizing s with
  | nil => exact h
  | cons l labels ih => exact ih (hI s l h)

/-- When no step raises the potential by more than it costs, a run does not either. -/
theorem foldl_potential (potential : S → ℕ) (cost : L → ℕ)
    (h : ∀ s l, potential (next s l) ≤ potential s + cost l) (labels : List L) (s : S) :
    potential (labels.foldl next s) ≤ potential s + (labels.map cost).sum := by
  induction labels generalizing s with
  | nil => exact le_rfl
  | cons l labels ih =>
      rw [List.foldl_cons, List.map_cons, List.sum_cons]
      have hfirst := h s l
      have hrest := ih (next s l)
      omega

/-- A property which a step keeps exactly when it is good holds all along a run exactly
when every step of the run is good. -/
theorem forall_prefix_iff (hI : ∀ s l, I s → I (next s l))
    (hstep : ∀ s l, I s → P s → (P (next s l) ↔ G s l)) (hs : I s) (hP : P s)
    (labels : List L) : (∀ before, before <+: labels → P (before.foldl next s)) ↔
      ∀ before l, before ++ [l] <+: labels → G (before.foldl next s) l := by
  have hlast (before : List L) (l : L) :
      (before ++ [l]).foldl next s = next (before.foldl next s) l := by
    rw [List.foldl_append]
    rfl
  constructor
  · intro h before l hl
    have hbefore := h before ((List.prefix_append before [l]).trans hl)
    have hafter := h (before ++ [l]) hl
    rw [hlast] at hafter
    exact (hstep _ l (foldl_invariant hI before hs) hbefore).mp hafter
  · intro h before
    induction before using List.reverseRecOn with
    | nil => exact fun _ => hP
    | append_singleton before l ih =>
        intro hl
        have hbefore := ih ((List.prefix_append before [l]).trans hl)
        rw [hlast]
        exact (hstep _ l (foldl_invariant hI before hs) hbefore).mpr (h before l hl)

end

end BankFinder.LabelledRuns
