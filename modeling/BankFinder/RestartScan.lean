import Mathlib

/-!
# Scans which start over

A loop visits the items of a list, changing a state on the way. When a step reports
that the list may have changed, the loop goes back to the first item of the list as
it then is. It ends with a pass during which no step reported a change. Each restart
has to lower a measure of the state; the number of items left in the pass is the
second component of the order by which the loop ends.
-/

namespace BankFinder.RestartScan

section
variable {S K : Type*}

/-- Visit the items up to the first step which asks for a restart; the flag is whether
one did. -/
def pass (step : K → S → Bool × S) : List K → S → Bool × S
  | [], s => (false, s)
  | k :: ks, s =>
      let r := step k s
      if r.1 then r else pass step ks r.2

/-- At most `fuel` passes; `none` when they were not enough. -/
def scan (items : S → List K) (step : K → S → Bool × S) : ℕ → S → Option S
  | 0, _ => none
  | fuel + 1, s =>
      let r := pass step (items s) s
      if r.1 then scan items step fuel r.2 else some r.2

theorem pass_cons (step : K → S → Bool × S) (k : K) (ks : List K) (s : S) :
    pass step (k :: ks) s = if (step k s).1 then step k s else pass step ks (step k s).2 := rfl

theorem scan_succ (items : S → List K) (step : K → S → Bool × S) (fuel : ℕ) (s : S) :
    scan items step (fuel + 1) s =
      if (pass step (items s) s).1 then scan items step fuel (pass step (items s) s).2
      else some (pass step (items s) s).2 := rfl

variable {items : S → List K} {step : K → S → Bool × S}

/-- What relates a state to itself, and is carried on by every step, holds after a pass. -/
theorem pass_induct (R : S → S → Prop) [Std.Refl R] [IsTrans S R]
    (hstep : ∀ k s, R s (step k s).2) (ks : List K) (s : S) : R s (pass step ks s).2 := by
  induction ks generalizing s with
  | nil => exact refl_of R s
  | cons k ks ih =>
      rw [pass_cons]
      split_ifs
      · exact hstep k s
      · exact trans_of R (hstep k s) (ih (step k s).2)

theorem scan_induct (R : S → S → Prop) [Std.Refl R] [IsTrans S R]
    (hstep : ∀ k s, R s (step k s).2) (fuel : ℕ) {s s' : S}
    (h : scan items step fuel s = some s') : R s s' := by
  induction fuel generalizing s with
  | zero => exact absurd h (by simp [scan])
  | succ fuel ih =>
      have hpass := pass_induct R hstep (items s) s
      rw [scan_succ] at h
      split_ifs at h
      · exact trans_of R hpass (ih h)
      · rw [← Option.some.inj h]
        exact hpass

/-- Restarts lower the measure and the other steps do not raise it. -/
structure Descends (step : K → S → Bool × S) (measure : S → ℕ) : Prop where
  restart : ∀ k s, (step k s).1 = true → measure (step k s).2 < measure s
  advance : ∀ k s, measure (step k s).2 ≤ measure s

theorem Descends.pass {measure : S → ℕ} (h : Descends step measure) (ks : List K) (s : S)
    (hrestart : (pass step ks s).1 = true) :
    measure (RestartScan.pass step ks s).2 < measure s := by
  induction ks generalizing s with
  | nil => exact absurd hrestart Bool.false_ne_true
  | cons k ks ih =>
      rw [pass_cons] at hrestart ⊢
      split_ifs at hrestart ⊢ with hk
      · exact h.restart k s hk
      · exact lt_of_lt_of_le (ih (step k s).2 hrestart) (h.advance k s)

theorem Descends.scan_ends {measure : S → ℕ} (h : Descends step measure) (fuel : ℕ) (s : S)
    (hfuel : measure s < fuel) : ∃ s', scan items step fuel s = some s' := by
  induction fuel generalizing s with
  | zero => exact absurd hfuel (Nat.not_lt_zero _)
  | succ fuel ih =>
      rw [scan_succ]
      split_ifs with hrestart
      · have hlt := h.pass (items s) s hrestart
        exact ih _ (by omega)
      · exact ⟨_, rfl⟩

/-- A scan which has ended is not changed by more fuel. -/
theorem scan_fuel (fuel more : ℕ) {s s' : S} (h : scan items step fuel s = some s') :
    scan items step (fuel + more) s = some s' := by
  induction fuel generalizing s with
  | zero => exact absurd h (by simp [scan])
  | succ fuel ih =>
      rw [Nat.add_right_comm, scan_succ]
      rw [scan_succ] at h
      split_ifs at h ⊢
      · exact ih h
      · exact h

/-- A pass without restart visits every item; `view` is what such steps leave alone. -/
theorem pass_quiet {V : Type*} {view : S → V}
    (hview : ∀ k s, (step k s).1 = false → view (step k s).2 = view s) (ks : List K) (s : S)
    (h : (pass step ks s).1 = false) :
    view (pass step ks s).2 = view s ∧
      ∀ k ∈ ks, ∃ t, view t = view s ∧ (step k t).1 = false := by
  induction ks generalizing s with
  | nil => exact ⟨rfl, fun k hk => absurd hk List.not_mem_nil⟩
  | cons k ks ih =>
      rw [pass_cons] at h ⊢
      split_ifs at h ⊢ with hk
      · exact absurd (hk.symm.trans h) (by simp)
      · rw [Bool.not_eq_true] at hk
        have hk' := hview k s hk
        obtain ⟨hend, hks⟩ := ih (step k s).2 h
        refine ⟨hend.trans hk', ?_⟩
        intro k' hmem
        rcases List.mem_cons.mp hmem with rfl | hmem
        · exact ⟨s, rfl, hk⟩
        · obtain ⟨t, ht, hstep⟩ := hks k' hmem
          exact ⟨t, ht.trans hk', hstep⟩

/-- When the scan ends, each item of the list as it then is was visited in a state which
looks like the last one, and none of these steps asked for a restart. -/
theorem scan_last_pass {V : Type*} (view : S → V)
    (hview : ∀ k s, (step k s).1 = false → view (step k s).2 = view s)
    (hitems : ∀ s t, view s = view t → items s = items t) (fuel : ℕ) {s s' : S}
    (h : scan items step fuel s = some s') :
    ∀ k ∈ items s', ∃ t, view t = view s' ∧ (step k t).1 = false := by
  induction fuel generalizing s with
  | zero => exact absurd h (by simp [scan])
  | succ fuel ih =>
      rw [scan_succ] at h
      split_ifs at h with hrestart
      · exact ih h
      · rw [Bool.not_eq_true] at hrestart
        obtain ⟨hend, hvisited⟩ := pass_quiet hview (items s) s hrestart
        rw [← Option.some.inj h, hitems _ _ hend, hend]
        exact hvisited

end

end BankFinder.RestartScan
