import Mathlib

/-!
# Cutting half-open segments

A segment `[lo, hi)` of a linear order loses a range and is left with at most two
pieces. A list of ranges is cut out one after another from a work list which
keeps only its first `cap` pieces; what is dropped on the way is lost. Together
the kept pieces and the lost addresses are exactly the set difference.
-/

namespace BankFinder.SegmentCut

variable {A : Type*} [LinearOrder A]

/-- The half-open segment from `lo` to `hi`; it is empty unless `lo < hi`. -/
structure Seg (A : Type*) where
  lo : A
  hi : A
  deriving DecidableEq, Repr

instance : Membership A (Seg A) := ⟨fun s x => s.lo ≤ x ∧ x < s.hi⟩

/-- Some piece of the list contains `x`. -/
def Covered (ps : List (Seg A)) (x : A) : Prop := ∃ p ∈ ps, x ∈ p

/-- The two ranges do not overlap, as decided from their ends. -/
def Misses (sk s : Seg A) : Prop := sk.hi ≤ s.lo ∨ sk.lo ≥ s.hi

instance (sk s : Seg A) : Decidable (Misses sk s) := inferInstanceAs (Decidable (_ ∨ _))

/-- What is left of `s` without `sk`. -/
def cut (sk s : Seg A) : List (Seg A) :=
  if Misses sk s then [s]
  else (if sk.lo > s.lo then [⟨s.lo, sk.lo⟩] else []) ++ if sk.hi < s.hi then [⟨sk.hi, s.hi⟩] else []

def cutAll (sk : Seg A) (ps : List (Seg A)) : List (Seg A) := ps.flatMap (cut sk)

/-- The pieces kept after cutting the ranges one by one, at most `cap` after each. -/
def cutRun (cap : ℕ) : List (Seg A) → List (Seg A) → List (Seg A)
  | [], ps => ps
  | sk :: sks, ps => cutRun cap sks ((cutAll sk ps).take cap)

/-- `x` is in a piece beyond the first `cap`, and no later range contains it. -/
def Loses (cap : ℕ) : List (Seg A) → List (Seg A) → A → Prop
  | [], _, _ => False
  | sk :: sks, ps, x =>
      (Covered ((cutAll sk ps).drop cap) x ∧ ∀ sk' ∈ sks, x ∉ sk') ∨
        Loses cap sks ((cutAll sk ps).take cap) x

/-- The range misses a piece of `ps` when `cap` pieces stand before it already,
the first `n` of which come from elsewhere. -/
def Blocked (cap : ℕ) (sk : Seg A) (n : ℕ) (ps : List (Seg A)) : Prop :=
  ∃ before w after, ps = before ++ w :: after ∧ Misses sk w ∧
    cap ≤ n + (cutAll sk before).length

/-- Some range is blocked on the work list which the ranges before it have left. -/
def Overruns (cap : ℕ) : List (Seg A) → List (Seg A) → Prop
  | [], _ => False
  | sk :: sks, ps => Blocked cap sk 0 ps ∨ Overruns cap sks ((cutAll sk ps).take cap)

section
variable {sk s : Seg A} {ps : List (Seg A)} {sks : List (Seg A)} {cap : ℕ}

theorem covered_append (ps qs : List (Seg A)) (x : A) :
    Covered (ps ++ qs) x ↔ Covered ps x ∨ Covered qs x := by
  unfold Covered
  simp only [List.mem_append, or_and_right, exists_or]

theorem covered_singleton (p : Seg A) (x : A) : Covered [p] x ↔ x ∈ p := by
  simp [Covered]

theorem covered_ite (b : Prop) [Decidable b] (p : Seg A) (x : A) :
    Covered (if b then [p] else []) x ↔ b ∧ x ∈ p := by
  split_ifs with hb <;> simp [Covered, hb]

theorem covered_cut (sk s : Seg A) (x : A) : Covered (cut sk s) x ↔ x ∈ s ∧ x ∉ sk := by
  unfold cut
  by_cases hmiss : Misses sk s
  · rw [if_pos hmiss, covered_singleton]
    constructor
    · intro hx
      refine ⟨hx, fun hsk => ?_⟩
      rcases hmiss with h | h
      · exact absurd hsk.2 (not_lt.mpr (h.trans hx.1))
      · exact absurd hx.2 (not_lt.mpr (h.trans hsk.1))
    · exact And.left
  · rw [if_neg hmiss, covered_append, covered_ite, covered_ite]
    rw [Misses, not_or, not_le, not_le] at hmiss
    obtain ⟨hlo, hhi⟩ := hmiss
    constructor
    · intro h
      rcases h with ⟨-, hx⟩ | ⟨-, hx⟩
      · exact ⟨⟨hx.1, hx.2.trans hhi⟩, fun hsk => absurd hx.2 (not_lt.mpr hsk.1)⟩
      · exact ⟨⟨hlo.le.trans hx.1, hx.2⟩, fun hsk => absurd hsk.2 (not_lt.mpr hx.1)⟩
    · intro h
      obtain ⟨hx, hsk⟩ := h
      by_cases hleft : x < sk.lo
      · exact Or.inl ⟨hx.1.trans_lt hleft, hx.1, hleft⟩
      · have hright : sk.hi ≤ x := not_lt.mp fun hlt => hsk ⟨not_lt.mp hleft, hlt⟩
        exact Or.inr ⟨hright.trans_lt hx.2, hright, hx.2⟩

theorem covered_cutAll (sk : Seg A) (ps : List (Seg A)) (x : A) :
    Covered (cutAll sk ps) x ↔ Covered ps x ∧ x ∉ sk := by
  induction ps with
  | nil => simp [cutAll, Covered]
  | cons p ps ih =>
      have hcons : cutAll sk (p :: ps) = cut sk p ++ cutAll sk ps := List.flatMap_cons ..
      have hsplit : Covered (p :: ps) x ↔ x ∈ p ∨ Covered ps x := by simp [Covered]
      rw [hcons, covered_append, covered_cut, ih, hsplit, or_and_right]

/-- Kept pieces and lost addresses together are the set difference. -/
theorem covered_cutRun_or_loses (cap : ℕ) (sks ps : List (Seg A)) (x : A) :
    Covered (cutRun cap sks ps) x ∨ Loses cap sks ps x ↔
      Covered ps x ∧ ∀ sk ∈ sks, x ∉ sk := by
  induction sks generalizing ps with
  | nil => simp [cutRun, Loses]
  | cons sk sks ih =>
      have hsplit := covered_append ((cutAll sk ps).take cap) ((cutAll sk ps).drop cap) x
      rw [List.take_append_drop, covered_cutAll] at hsplit
      have hstep := ih ((cutAll sk ps).take cap)
      unfold cutRun Loses
      rw [or_left_comm, hstep, ← or_and_right, or_comm (a := Covered _ x), ← hsplit, and_assoc]
      simp

/-- Every piece lies inside one of the pieces it was cut from. -/
theorem cut_inside {q : Seg A} (h : q ∈ cut sk s) : s.lo ≤ q.lo ∧ q.hi ≤ s.hi := by
  unfold cut at h
  by_cases hmiss : Misses sk s
  · rw [if_pos hmiss] at h
    rw [List.mem_singleton.mp h]
    exact ⟨le_rfl, le_rfl⟩
  · rw [if_neg hmiss] at h
    rw [Misses, not_or, not_le, not_le] at hmiss
    rcases List.mem_append.mp h with h | h
    · split_ifs at h
      · rw [List.mem_singleton.mp h]
        exact ⟨le_rfl, hmiss.2.le⟩
      · exact absurd h List.not_mem_nil
    · split_ifs at h
      · rw [List.mem_singleton.mp h]
        exact ⟨hmiss.1.le, le_rfl⟩
      · exact absurd h List.not_mem_nil

theorem cutRun_inside {q : Seg A} (h : q ∈ cutRun cap sks ps) :
    ∃ p ∈ ps, p.lo ≤ q.lo ∧ q.hi ≤ p.hi := by
  induction sks generalizing ps with
  | nil => exact ⟨q, h, le_rfl, le_rfl⟩
  | cons sk sks ih =>
      obtain ⟨r, hr, hlo, hhi⟩ := ih h
      obtain ⟨p, hp, hcut⟩ := List.mem_flatMap.mp (List.mem_of_mem_take hr)
      obtain ⟨hlo', hhi'⟩ := cut_inside hcut
      exact ⟨p, hp, hlo'.trans hlo, hhi.trans hhi'⟩

theorem Misses.mono {q : Seg A} (h : Misses sk s) (hq : s.lo ≤ q.lo ∧ q.hi ≤ s.hi) :
    Misses sk q := by
  rcases h with h | h
  · exact Or.inl (h.trans hq.1)
  · exact Or.inr (hq.2.trans h)

/-- Whatever the ends of the range, the pieces it leaves miss it. -/
theorem misses_of_mem_cut {q : Seg A} (h : q ∈ cut sk s) : Misses sk q := by
  unfold cut at h
  split_ifs at h with hmiss hleft hright hright
  · rw [List.mem_singleton.mp h]
    exact hmiss
  · rcases List.mem_append.mp h with h | h
    · rw [List.mem_singleton.mp h]
      exact Or.inr le_rfl
    · rw [List.mem_singleton.mp h]
      exact Or.inl le_rfl
  · rw [List.append_nil, List.mem_singleton] at h
    rw [h]
    exact Or.inr le_rfl
  · rw [List.nil_append, List.mem_singleton] at h
    rw [h]
    exact Or.inl le_rfl
  · exact absurd h List.not_mem_nil

/-- A kept piece misses every range, also the ones cut out before it was made. -/
theorem misses_of_mem_cutRun {q : Seg A} (h : q ∈ cutRun cap sks ps) :
    ∀ sk ∈ sks, Misses sk q := by
  induction sks generalizing ps with
  | nil =>
      intro sk hsk
      exact absurd hsk List.not_mem_nil
  | cons sk sks ih =>
      rw [List.forall_mem_cons]
      have hrest : q ∈ cutRun cap sks ((cutAll sk ps).take cap) := h
      refine ⟨?_, ih hrest⟩
      obtain ⟨r, hr, hinside⟩ := cutRun_inside hrest
      obtain ⟨p, -, hcut⟩ := List.mem_flatMap.mp (List.mem_of_mem_take hr)
      exact (misses_of_mem_cut hcut).mono hinside

/-- A cut makes pieces with something in them. -/
theorem eq_or_lt_of_mem_cut {q : Seg A} (h : q ∈ cut sk s) : q = s ∨ q.lo < q.hi := by
  unfold cut at h
  split_ifs at h with hmiss hleft hright hright
  · exact Or.inl (List.mem_singleton.mp h)
  · rcases List.mem_append.mp h with h | h
    · rw [List.mem_singleton.mp h]
      exact Or.inr hleft
    · rw [List.mem_singleton.mp h]
      exact Or.inr hright
  · rw [List.append_nil, List.mem_singleton] at h
    rw [h]
    exact Or.inr hleft
  · rw [List.nil_append, List.mem_singleton] at h
    rw [h]
    exact Or.inr hright
  · exact absurd h List.not_mem_nil

theorem mem_or_lt_of_mem_cutRun {q : Seg A} (h : q ∈ cutRun cap sks ps) :
    q ∈ ps ∨ q.lo < q.hi := by
  induction sks generalizing ps with
  | nil => exact Or.inl h
  | cons sk sks ih =>
      rcases ih h with hmem | hlt
      · obtain ⟨p, hp, hcut⟩ := List.mem_flatMap.mp (List.mem_of_mem_take hmem)
        rcases eq_or_lt_of_mem_cut hcut with rfl | hlt
        · exact Or.inl hp
        · exact Or.inr hlt
      · exact Or.inr hlt

/-- No address is in both. -/
def Apart (p q : Seg A) : Prop := ∀ x, x ∈ p → x ∉ q

theorem Apart.mono {p q p' q' : Seg A} (h : Apart p q) (hp : p.lo ≤ p'.lo ∧ p'.hi ≤ p.hi)
    (hq : q.lo ≤ q'.lo ∧ q'.hi ≤ q.hi) : Apart p' q' := by
  intro x hx hx'
  exact h x ⟨hp.1.trans hx.1, hx.2.trans_le hp.2⟩ ⟨hq.1.trans hx'.1, hx'.2.trans_le hq.2⟩

theorem pairwise_cut (hsk : sk.lo ≤ sk.hi) : (cut sk s).Pairwise Apart := by
  have hsides : Apart (⟨s.lo, sk.lo⟩ : Seg A) ⟨sk.hi, s.hi⟩ := by
    intro x hx hx'
    exact absurd hx.2 (not_lt.mpr (hsk.trans hx'.1))
  unfold cut
  split_ifs <;> simp [hsides]

theorem pairwise_cutAll (hsk : sk.lo ≤ sk.hi) (h : ps.Pairwise Apart) :
    (cutAll sk ps).Pairwise Apart := by
  unfold cutAll
  rw [List.pairwise_flatMap]
  constructor
  · intro p _
    exact pairwise_cut hsk
  · apply h.imp
    intro p q hpq p' hp' q' hq'
    exact hpq.mono (cut_inside hp') (cut_inside hq')

theorem pairwise_cutRun (hsks : ∀ sk ∈ sks, sk.lo ≤ sk.hi) (h : ps.Pairwise Apart) :
    (cutRun cap sks ps).Pairwise Apart := by
  induction sks generalizing ps with
  | nil => exact h
  | cons sk sks ih =>
      have hcut := pairwise_cutAll (hsks sk List.mem_cons_self) h
      exact ih (fun sk' hsk' => hsks sk' (List.mem_cons_of_mem sk hsk'))
        (hcut.sublist (List.take_sublist _ _))

/-- What is lost is in no piece that is kept. -/
theorem not_covered_of_loses (hsks : ∀ sk ∈ sks, sk.lo ≤ sk.hi) (h : ps.Pairwise Apart) {x : A}
    (hx : Loses cap sks ps x) : ¬Covered (cutRun cap sks ps) x := by
  induction sks generalizing ps with
  | nil => exact hx.elim
  | cons sk sks ih =>
      have hcut := pairwise_cutAll (hsks sk List.mem_cons_self) h
      rcases hx with ⟨⟨q, hq, hxq⟩, -⟩ | hx
      · intro hcov
        have hkept := ((covered_cutRun_or_loses cap sks _ x).mp (Or.inl hcov)).1
        obtain ⟨p, hp, hxp⟩ := hkept
        rw [← List.take_append_drop cap (cutAll sk ps), List.pairwise_append] at hcut
        exact hcut.2.2 p hp q hq x hxp hxq
      · exact ih (fun sk' hsk' => hsks sk' (List.mem_cons_of_mem sk hsk'))
          (hcut.sublist (List.take_sublist _ _)) hx

theorem length_cut_le_two (sk s : Seg A) : (cut sk s).length ≤ 2 := by
  unfold cut
  split_ifs <;> simp

theorem length_cut_le_one (h : sk.lo ∉ s) : (cut sk s).length ≤ 1 := by
  unfold cut
  by_cases hmiss : Misses sk s
  · rw [if_pos hmiss]
    exact le_rfl
  · rw [if_neg hmiss]
    rw [Misses, not_or, not_le, not_le] at hmiss
    have hleft : ¬sk.lo > s.lo := fun hlt => h ⟨hlt.le, hmiss.2⟩
    rw [if_neg hleft]
    split_ifs <;> simp

theorem length_cutAll_le_of_notMem (h : ∀ p ∈ ps, sk.lo ∉ p) :
    (cutAll sk ps).length ≤ ps.length := by
  induction ps with
  | nil => exact Nat.zero_le _
  | cons p ps ih =>
      rw [List.forall_mem_cons] at h
      have hp := length_cut_le_one h.1
      have hps := ih h.2
      unfold cutAll at hps ⊢
      rw [List.flatMap_cons, List.length_append, List.length_cons]
      omega

/-- A range splits at most one of the pieces. -/
theorem length_cutAll_le (sk : Seg A) (h : ps.Pairwise Apart) :
    (cutAll sk ps).length ≤ ps.length + 1 := by
  induction ps with
  | nil => exact Nat.zero_le _
  | cons p ps ih =>
      rw [List.pairwise_cons] at h
      have hstep : (cutAll sk (p :: ps)).length = (cut sk p).length + (cutAll sk ps).length := by
        simp [cutAll]
      rw [hstep, List.length_cons]
      by_cases hp : sk.lo ∈ p
      · have htwo := length_cut_le_two sk p
        have hrest := length_cutAll_le_of_notMem fun q hq => h.1 q hq sk.lo hp
        omega
      · have hone := length_cut_le_one hp
        have hrest := ih h.2
        omega

/-- With room for one more piece for every range, nothing is blocked and nothing is lost. -/
theorem fits_of_room (hsks : ∀ sk ∈ sks, sk.lo ≤ sk.hi) (h : ps.Pairwise Apart)
    (hroom : ps.length + sks.length ≤ cap) :
    ¬Overruns cap sks ps ∧ ∀ x, ¬Loses cap sks ps x := by
  induction sks generalizing ps with
  | nil => exact ⟨id, fun _ => id⟩
  | cons sk sks ih =>
      rw [List.length_cons] at hroom
      have hlength := length_cutAll_le sk h
      have htake : (cutAll sk ps).take cap = cutAll sk ps := List.take_of_length_le (by omega)
      have hdrop : (cutAll sk ps).drop cap = [] := List.drop_eq_nil_of_le (by omega)
      have hcut := pairwise_cutAll (hsks sk List.mem_cons_self) h
      obtain ⟨hover, hloses⟩ := ih (fun sk' hsk' => hsks sk' (List.mem_cons_of_mem sk hsk')) hcut
        (by omega)
      constructor
      · intro hbad
        rcases hbad with ⟨before, w, after, heq, -, hcap⟩ | hbad
        · rw [heq] at h hroom
          have hbefore := length_cutAll_le sk (List.pairwise_append.mp h).1
          rw [List.length_append, List.length_cons] at hroom
          omega
        · rw [htake] at hbad
          exact hover hbad
      · intro x hbad
        rcases hbad with ⟨⟨p, hp, -⟩, -⟩ | hbad
        · rw [hdrop] at hp
          exact absurd hp List.not_mem_nil
        · rw [htake] at hbad
          exact hloses x hbad

theorem not_blocked_nil (cap : ℕ) (sk : Seg A) (n : ℕ) : ¬Blocked cap sk n [] := by
  intro h
  obtain ⟨before, w, after, heq, -⟩ := h
  exact absurd heq.symm (by simp)

theorem blocked_cons (cap : ℕ) (sk : Seg A) (n : ℕ) (p : Seg A) (ps : List (Seg A)) :
    Blocked cap sk n (p :: ps) ↔
      Misses sk p ∧ cap ≤ n ∨ Blocked cap sk (n + (cut sk p).length) ps := by
  have hlength (before : List (Seg A)) : (cutAll sk (p :: before)).length =
      (cut sk p).length + (cutAll sk before).length := by simp [cutAll]
  constructor
  · intro h
    obtain ⟨before, w, after, heq, hmiss, hcap⟩ := h
    cases before with
    | nil =>
        obtain ⟨rfl, -⟩ := List.cons.inj heq
        exact Or.inl ⟨hmiss, hcap⟩
    | cons q before =>
        obtain ⟨rfl, hrest⟩ := List.cons.inj heq
        rw [hlength] at hcap
        exact Or.inr ⟨before, w, after, hrest, hmiss, by omega⟩
  · intro h
    rcases h with ⟨hmiss, hcap⟩ | ⟨before, w, after, heq, hmiss, hcap⟩
    · exact ⟨[], p, ps, rfl, hmiss, hcap⟩
    · refine ⟨p :: before, w, after, by rw [heq]; rfl, hmiss, ?_⟩
      rw [hlength]
      omega

theorem not_overruns_nil (cap : ℕ) (sks : List (Seg A)) : ¬Overruns cap sks [] := by
  induction sks with
  | nil => exact id
  | cons sk sks ih =>
      have hnil : (cutAll sk ([] : List (Seg A))).take cap = [] := List.take_nil
      intro h
      unfold Overruns at h
      rcases h with h | h
      · exact not_blocked_nil cap sk 0 h
      · rw [hnil] at h
        exact ih h

end

end BankFinder.SegmentCut
