import BankFinder.SegmentCut

/-!
# Merging half-open segments

A list of segments takes in another one: the first segment which overlaps or abuts it
grows to the hull of both, and without such a segment it is appended, as long as there
is room. No address is invented or lost that way. The list stays free of segments which
touch exactly as long as a new one never touches two of them.
-/

namespace BankFinder.SegmentMerge
open SegmentCut

variable {A : Type*} [LinearOrder A]

/-- The segments overlap or abut, as decided from their ends. -/
def Touches (p q : Seg A) : Prop := p.lo ≤ q.hi ∧ q.lo ≤ p.hi

instance (p q : Seg A) : Decidable (Touches p q) := inferInstanceAs (Decidable (_ ∧ _))

def hull (p q : Seg A) : Seg A := ⟨min p.lo q.lo, max p.hi q.hi⟩

/-- The first segment which `p` touches grows. -/
def absorb (p : Seg A) : List (Seg A) → Option (List (Seg A))
  | [] => none
  | s :: ss => if Touches p s then some (hull p s :: ss) else (absorb p ss).map (s :: ·)

def insertSeg (cap : ℕ) (ss : List (Seg A)) (p : Seg A) : List (Seg A) :=
  match absorb p ss with
  | some grown => grown
  | none => if ss.length < cap then ss ++ [p] else ss

/-- There is room for the segment, or one which it touches. -/
def Fits (cap : ℕ) (ss : List (Seg A)) (p : Seg A) : Prop :=
  (∀ s ∈ ss, ¬Touches p s) → ss.length < cap

def Proper (ss : List (Seg A)) : Prop := ∀ s ∈ ss, s.lo < s.hi

def Separate (p q : Seg A) : Prop := ¬Touches p q

instance : Std.Symm (Separate (A := A)) := ⟨fun _ _ h hqp => h hqp.symm⟩

/-- No two segments touch. -/
def Merged (ss : List (Seg A)) : Prop := ss.Pairwise Separate

def TouchesAtMostOne (ss : List (Seg A)) (p : Seg A) : Prop :=
  (ss.filter fun s => Touches p s).length ≤ 1

instance (ss : List (Seg A)) (p : Seg A) : Decidable (TouchesAtMostOne ss p) :=
  inferInstanceAs (Decidable (_ ≤ _))

section
variable {p q s t : Seg A} {ss grown : List (Seg A)} {cap : ℕ}

theorem touches_comm : Touches p q ↔ Touches q p := And.comm

theorem touches_self (h : p.lo < p.hi) : Touches p p := ⟨h.le, h.le⟩

theorem mem_hull (h : Touches p q) (x : A) : x ∈ hull p q ↔ x ∈ p ∨ x ∈ q := by
  constructor
  · intro hx
    obtain ⟨hlo, hhi⟩ := hx
    rcases min_le_iff.mp hlo with hp | hq
    · rcases lt_or_ge x p.hi with hlt | hge
      · exact Or.inl ⟨hp, hlt⟩
      · exact Or.inr ⟨h.2.trans hge, (lt_max_iff.mp hhi).resolve_left (not_lt.mpr hge)⟩
    · rcases lt_or_ge x q.hi with hlt | hge
      · exact Or.inr ⟨hq, hlt⟩
      · exact Or.inl ⟨h.1.trans hge, (lt_max_iff.mp hhi).resolve_right (not_lt.mpr hge)⟩
  · intro hx
    rcases hx with hx | hx
    · exact ⟨min_le_iff.mpr (Or.inl hx.1), lt_max_iff.mpr (Or.inl hx.2)⟩
    · exact ⟨min_le_iff.mpr (Or.inr hx.1), lt_max_iff.mpr (Or.inr hx.2)⟩

/-- The hull touches what one of the two touches. -/
theorem touches_hull (h : Touches p q) (ht : t.lo < t.hi) :
    Touches (hull p q) t ↔ Touches p t ∨ Touches q t := by
  constructor
  · intro hhull
    obtain ⟨hlo, hhi⟩ := hhull
    rcases min_le_iff.mp hlo with hp | hq
    · rcases le_or_gt t.lo p.hi with hle | hgt
      · exact Or.inl ⟨hp, hle⟩
      · have hq : t.lo ≤ q.hi := (le_max_iff.mp hhi).resolve_left (not_le.mpr hgt)
        exact Or.inr ⟨h.2.trans (hgt.trans ht).le, hq⟩
    · rcases le_or_gt t.lo q.hi with hle | hgt
      · exact Or.inr ⟨hq, hle⟩
      · have hp : t.lo ≤ p.hi := (le_max_iff.mp hhi).resolve_right (not_le.mpr hgt)
        exact Or.inl ⟨h.1.trans (hgt.trans ht).le, hp⟩
  · intro htouch
    rcases htouch with hp | hq
    · exact ⟨min_le_iff.mpr (Or.inl hp.1), le_max_iff.mpr (Or.inl hp.2)⟩
    · exact ⟨min_le_iff.mpr (Or.inr hq.1), le_max_iff.mpr (Or.inr hq.2)⟩

theorem absorb_eq_none : absorb p ss = none ↔ ∀ s ∈ ss, ¬Touches p s := by
  induction ss with
  | nil => simp [absorb]
  | cons s ss ih =>
      unfold absorb
      rw [List.forall_mem_cons]
      split_ifs with h
      · simp [h]
      · rw [Option.map_eq_none_iff, ih]
        simp [h]

/-- Where the list grew. -/
theorem absorb_some (h : absorb p ss = some grown) : ∃ before s after,
    ss = before ++ s :: after ∧ (∀ t ∈ before, ¬Touches p t) ∧ Touches p s ∧
      grown = before ++ hull p s :: after := by
  induction ss generalizing grown with
  | nil => exact absurd h (by simp [absorb])
  | cons s ss ih =>
      unfold absorb at h
      split_ifs at h with htouch
      · exact ⟨[], s, ss, rfl, fun t ht => absurd ht List.not_mem_nil, htouch,
          (Option.some.inj h).symm⟩
      · obtain ⟨rest, hsome, rfl⟩ := Option.map_eq_some_iff.mp h
        obtain ⟨before, t, after, rfl, hbefore, ht, rfl⟩ := ih hsome
        exact ⟨s :: before, t, after, rfl, List.forall_mem_cons.mpr ⟨htouch, hbefore⟩, ht, rfl⟩

/-- What a list can become: longer by a segment which touches none, or grown at the first one
which is touched, or it is full and stays as it is. -/
theorem insertSeg_cases (cap : ℕ) (ss : List (Seg A)) (p : Seg A) :
    (∀ s ∈ ss, ¬Touches p s) ∧ ss.length < cap ∧ insertSeg cap ss p = ss ++ [p] ∨
      (∃ before s after, ss = before ++ s :: after ∧ (∀ t ∈ before, ¬Touches p t) ∧
        Touches p s ∧ insertSeg cap ss p = before ++ hull p s :: after) ∨
      (∀ s ∈ ss, ¬Touches p s) ∧ cap ≤ ss.length ∧ insertSeg cap ss p = ss := by
  unfold insertSeg
  cases h : absorb p ss with
  | none =>
      have hnone := absorb_eq_none.mp h
      simp only
      split_ifs with hroom
      · exact Or.inl ⟨hnone, hroom, rfl⟩
      · exact Or.inr (Or.inr ⟨hnone, not_lt.mp hroom, rfl⟩)
  | some grown => exact Or.inr (Or.inl (absorb_some h))

theorem covered_cons (s : Seg A) (ss : List (Seg A)) (x : A) :
    Covered (s :: ss) x ↔ x ∈ s ∨ Covered ss x := by
  simp [Covered]

/-- Nothing is lost or invented. -/
theorem covered_insertSeg (h : Fits cap ss p) (x : A) :
    Covered (insertSeg cap ss p) x ↔ Covered ss x ∨ x ∈ p := by
  rcases insertSeg_cases cap ss p with ⟨-, -, heq⟩ |
    ⟨before, s, after, rfl, -, htouch, heq⟩ | ⟨hnone, hfull, -⟩
  · rw [heq, covered_append, covered_singleton]
  · rw [heq, covered_append, covered_append, covered_cons, covered_cons, mem_hull htouch]
    tauto
  · exact absurd (h hnone) (not_lt.mpr hfull)

/-- Nothing is invented, whether there is room or not. -/
theorem covered_of_insertSeg {x : A} (h : Covered (insertSeg cap ss p) x) :
    Covered ss x ∨ x ∈ p := by
  by_cases hfits : Fits cap ss p
  · exact (covered_insertSeg hfits x).mp h
  · rcases insertSeg_cases cap ss p with ⟨-, hroom, -⟩ | ⟨before, s, after, rfl, -, htouch, -⟩ |
      ⟨-, -, heq⟩
    · exact absurd (fun _ => hroom) hfits
    · exact absurd (fun hnone => absurd htouch (hnone s (by simp))) hfits
    · rw [heq] at h
      exact Or.inl h

theorem covered_insertSeg_of_covered (cap : ℕ) (p : Seg A) {x : A} (h : Covered ss x) :
    Covered (insertSeg cap ss p) x := by
  rcases insertSeg_cases cap ss p with ⟨-, -, heq⟩ |
    ⟨before, s, after, rfl, -, htouch, heq⟩ | ⟨-, -, heq⟩
  · rw [heq, covered_append]
    exact Or.inl h
  · rw [covered_append, covered_cons] at h
    rw [heq, covered_append, covered_cons, mem_hull htouch]
    tauto
  · rw [heq]
    exact h

theorem length_le_insertSeg (cap : ℕ) (ss : List (Seg A)) (p : Seg A) :
    ss.length ≤ (insertSeg cap ss p).length := by
  rcases insertSeg_cases cap ss p with ⟨-, -, heq⟩ | ⟨before, s, after, rfl, -, -, heq⟩ |
    ⟨-, -, heq⟩
  · simp [heq]
  · simp [heq]
  · rw [heq]

theorem length_insertSeg_le (cap : ℕ) (ss : List (Seg A)) (p : Seg A) :
    (insertSeg cap ss p).length ≤ ss.length + 1 := by
  rcases insertSeg_cases cap ss p with ⟨-, -, heq⟩ | ⟨before, s, after, rfl, -, -, heq⟩ |
    ⟨-, -, heq⟩
  · simp [heq]
  · simp [heq]
  · rw [heq]
    exact Nat.le_succ _

theorem merged_middle (before after : List (Seg A)) (s : Seg A) :
    Merged (before ++ s :: after) ↔ Merged (before ++ after) ∧
      ∀ t ∈ before ++ after, ¬Touches s t := by
  have hperm : (before ++ s :: after).Perm (s :: (before ++ after)) := List.perm_middle
  unfold Merged
  rw [hperm.pairwise_iff symm, List.pairwise_cons, And.comm]
  rfl

theorem touchesAtMostOne_of_none (h : ∀ s ∈ ss, ¬Touches p s) : TouchesAtMostOne ss p := by
  have hfilter : (ss.filter fun s => Touches p s) = [] := by
    simpa [List.filter_eq_nil_iff] using h
  unfold TouchesAtMostOne
  rw [hfilter]
  exact Nat.zero_le 1

/-- Behind the first segment which is touched there is none. -/
theorem touchesAtMostOne_iff {before after : List (Seg A)} (hbefore : ∀ t ∈ before, ¬Touches p t)
    (htouch : Touches p s) :
    TouchesAtMostOne (before ++ s :: after) p ↔ ∀ t ∈ after, ¬Touches p t := by
  have hnil : (before.filter fun t => Touches p t) = [] := by
    simpa [List.filter_eq_nil_iff] using hbefore
  have hfilter : ((before ++ s :: after).filter fun t => Touches p t) =
      s :: after.filter fun t => Touches p t := by
    rw [List.filter_append, hnil, List.filter_cons_of_pos (by simpa using htouch),
      List.nil_append]
  unfold TouchesAtMostOne
  rw [hfilter, List.length_cons, Nat.succ_le_succ_iff, Nat.le_zero, List.length_eq_zero_iff,
    List.filter_eq_nil_iff]
  simp

/-- A list stays merged exactly when the new segment does not join two of its segments. -/
theorem merged_insertSeg_iff (hproper : Proper ss) (h : Merged ss) :
    Merged (insertSeg cap ss p) ↔ TouchesAtMostOne ss p := by
  rcases insertSeg_cases cap ss p with ⟨hnone, -, heq⟩ |
    ⟨before, s, after, rfl, hbefore, htouch, heq⟩ | ⟨hnone, -, heq⟩
  · have hmiddle := merged_middle ss [] p
    rw [List.append_nil] at hmiddle
    rw [heq, hmiddle]
    exact iff_of_true ⟨h, hnone⟩ (touchesAtMostOne_of_none hnone)
  · obtain ⟨hrest, hs⟩ := (merged_middle before after s).mp h
    rw [heq, merged_middle, touchesAtMostOne_iff hbefore htouch]
    constructor
    · intro hmerged t ht
      have hnot := hmerged.2 t (List.mem_append_right _ ht)
      have hpt := hproper t (List.mem_append_right _ (List.mem_cons_of_mem s ht))
      rw [touches_hull htouch hpt] at hnot
      exact fun hp => hnot (Or.inl hp)
    · intro hafter
      refine ⟨hrest, ?_⟩
      intro t ht
      have hmem : t ∈ before ++ s :: after := by
        rcases List.mem_append.mp ht with ht | ht
        · exact List.mem_append_left _ ht
        · exact List.mem_append_right _ (List.mem_cons_of_mem s ht)
      rw [touches_hull htouch (hproper t hmem), not_or]
      refine ⟨?_, hs t ht⟩
      rcases List.mem_append.mp ht with ht | ht
      · exact hbefore t ht
      · exact hafter t ht
  · rw [heq]
    exact iff_of_true h (touchesAtMostOne_of_none hnone)

/-- A segment of `S` which no segment of `S` extends. -/
structure MaximalRun (S : A → Prop) (p : Seg A) : Prop where
  nonempty : p.lo < p.hi
  inside : ∀ x ∈ p, S x
  maximal : ∀ q : Seg A, q.lo < q.hi → (∀ x ∈ q, S x) → Touches q p → p.lo ≤ q.lo ∧ q.hi ≤ p.hi

theorem Merged.eq_of_touches (h : Merged ss) (hs : s ∈ ss) (ht : t ∈ ss) (htouch : Touches s t) :
    s = t := by
  by_contra hne
  exact List.Pairwise.forall h hs ht hne htouch

theorem maximalRun_of_mem (hproper : Proper ss) (h : Merged ss) (hs : s ∈ ss) :
    MaximalRun (Covered ss) s := by
  refine ⟨hproper s hs, fun x hx => ⟨s, hs, hx⟩, ?_⟩
  intro q hq hinside htouch
  have hle : s.lo ≤ q.lo := by
    by_contra hlt
    rw [not_le] at hlt
    obtain ⟨r, hr, hrlo, hrhi⟩ := hinside q.lo ⟨le_rfl, hq⟩
    rcases le_or_gt s.lo r.hi with hnear | hfar
    · have heq := h.eq_of_touches hr hs ⟨(hrlo.trans hlt.le).trans (hproper s hs).le, hnear⟩
      rw [heq] at hrlo
      exact absurd hlt (not_lt.mpr hrlo)
    · obtain ⟨r', hr', hlo', hhi'⟩ := hinside r.hi ⟨hrhi.le, hfar.trans_le htouch.2⟩
      have heq := h.eq_of_touches hr hr' ⟨(hproper r hr).le.trans hhi'.le, hlo'⟩
      rw [heq] at hhi'
      exact lt_irrefl _ hhi'
  refine ⟨hle, ?_⟩
  by_contra hlt
  rw [not_le] at hlt
  obtain ⟨r, hr, hrlo, hrhi⟩ := hinside s.hi ⟨htouch.1, hlt⟩
  have heq := h.eq_of_touches hs hr ⟨(hproper s hs).le.trans hrhi.le, hrlo⟩
  rw [heq] at hrhi
  exact lt_irrefl _ hrhi

/-- A merged list consists of the maximal runs of what it covers. -/
theorem maximalRun_iff_mem (hproper : Proper ss) (h : Merged ss) :
    MaximalRun (Covered ss) p ↔ p ∈ ss := by
  constructor
  · intro hp
    obtain ⟨s, hs, hlo, hhi⟩ := hp.inside p.lo ⟨le_rfl, hp.nonempty⟩
    have hrun := maximalRun_of_mem hproper h hs
    have hsp : Touches s p := ⟨hlo.trans hp.nonempty.le, hhi.le⟩
    have hinner := hp.maximal s hrun.nonempty hrun.inside hsp
    have houter := hrun.maximal p hp.nonempty hp.inside (touches_comm.mp hsp)
    have heq : p = s := by
      cases p
      cases s
      exact congrArg₂ Seg.mk (le_antisymm hinner.1 houter.1) (le_antisymm houter.2 hinner.2)
    rw [heq]
    exact hs
  · exact maximalRun_of_mem hproper h

theorem length_eq_ncard_maximalRun (hproper : Proper ss) (h : Merged ss) :
    ss.length = {p | MaximalRun (Covered ss) p}.ncard := by
  have hnodup : ss.Nodup := by
    refine List.Pairwise.imp_of_mem ?_ h
    intro a b ha _ hnot heq
    rw [← heq] at hnot
    exact hnot (touches_self (hproper a ha))
  have hset : {p | MaximalRun (Covered ss) p} = (ss.toFinset : Set (Seg A)) := by
    ext p
    rw [Set.mem_ofPred_eq, maximalRun_iff_mem hproper h, List.coe_toFinset]
    rfl
  rw [hset, Set.ncard_coe_finset, List.toFinset_card_of_nodup hnodup]

end

end BankFinder.SegmentMerge
