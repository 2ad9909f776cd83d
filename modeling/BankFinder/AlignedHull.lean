import Mathlib

/-!
# The aligned hull of an interval

The shortest interval which begins and ends at multiples of a grain, contains a given
interval and is not empty. There is exactly one, and two divisions compute it.
-/

namespace BankFinder.AlignedHull

/-- The interval of `size` numbers from `start` begins and ends at multiples of the grain, and
reaches by less than one grain over either end of the interval of `len` numbers from `addr`.
For an empty interval at a multiple it is one whole grain. -/
structure Hull (grain addr len start size : ℕ) : Prop where
  start_dvd : grain ∣ start
  size_dvd : grain ∣ size
  size_pos : 0 < size
  contains : Set.Ico addr (addr + len) ⊆ Set.Ico start (start + size)
  start_le : start ≤ addr
  end_le : addr + len ≤ start + size
  near_start : addr < start + grain
  near_end : if grain ∣ addr ∧ len = 0 then start + size = addr + grain
    else start + size < addr + len + grain

def hullStart (grain addr : ℕ) : ℕ := addr / grain * grain

def hullSize (grain addr len : ℕ) : ℕ :=
  max grain ((len + addr % grain + (grain - 1)) / grain * grain)

/-- Multiples which are less than one grain apart. -/
theorem eq_of_dvd_near {grain a b : ℕ} (ha : grain ∣ a) (hb : grain ∣ b) (hab : a < b + grain)
    (hba : b < a + grain) : a = b := by
  obtain ⟨i, rfl⟩ := ha
  obtain ⟨j, rfl⟩ := hb
  rw [← Nat.mul_succ] at hab hba
  have hij := Nat.lt_of_mul_lt_mul_left hab
  have hji := Nat.lt_of_mul_lt_mul_left hba
  rw [show i = j by omega]

/-- Rounding up by adding all but one of the grain and rounding down. -/
theorem roundUp_spec {grain : ℕ} (hg : 0 < grain) (n : ℕ) :
    n ≤ (n + (grain - 1)) / grain * grain ∧ (n + (grain - 1)) / grain * grain < n + grain := by
  have hdiv := Nat.div_add_mod' (n + (grain - 1)) grain
  have hmod := Nat.mod_lt (n + (grain - 1)) hg
  omega

section
variable {grain addr len start size : ℕ}

theorem dvd_hullSize (grain addr len : ℕ) : grain ∣ hullSize grain addr len := by
  unfold hullSize
  rcases max_choice grain ((len + addr % grain + (grain - 1)) / grain * grain) with h | h
  · rw [h]
  · rw [h]
    exact Nat.dvd_mul_left ..

theorem hullSize_degenerate (hg : 0 < grain) (h : grain ∣ addr) :
    hullSize grain addr 0 = grain := by
  rw [hullSize, Nat.mod_eq_zero_of_dvd h, Nat.zero_add,
    Nat.div_eq_of_lt (Nat.sub_lt hg one_pos), Nat.zero_mul, max_eq_left (Nat.zero_le _)]

theorem hullSize_pos (hg : 0 < grain) (h : 0 < len + addr % grain) :
    hullSize grain addr len = (len + addr % grain + (grain - 1)) / grain * grain := by
  have hle := (roundUp_spec hg (len + addr % grain)).1
  refine max_eq_right (Nat.le_of_dvd (by omega) (Nat.dvd_mul_left ..))

theorem hull_computed (hg : 0 < grain) (addr len : ℕ) :
    Hull grain addr len (hullStart grain addr) (hullSize grain addr len) := by
  have hstart : hullStart grain addr + addr % grain = addr := Nat.div_add_mod' addr grain
  have hmod := Nat.mod_lt addr hg
  obtain ⟨hle, hlt⟩ := roundUp_spec hg (len + addr % grain)
  have hend : addr + len ≤ hullStart grain addr + hullSize grain addr len := by
    have hmax : _ ≤ hullSize grain addr len := le_max_right _ _
    omega
  refine ⟨Nat.dvd_mul_left .., dvd_hullSize .., lt_of_lt_of_le hg (le_max_left _ _),
    Set.Ico_subset_Ico (by omega) hend, by omega, hend, by omega, ?_⟩
  split_ifs with hempty
  · obtain ⟨hdvd, rfl⟩ := hempty
    rw [hullSize_degenerate hg hdvd, hullStart, Nat.div_mul_cancel hdvd]
  · have hpos : 0 < len + addr % grain := by
      rw [Nat.dvd_iff_mod_eq_zero] at hempty
      omega
    rw [hullSize_pos hg hpos]
    omega

theorem Hull.unique {start' size' : ℕ} (h : Hull grain addr len start size)
    (h' : Hull grain addr len start' size') : start = start' ∧ size = size' := by
  have hstart : start = start' :=
    eq_of_dvd_near h.start_dvd h'.start_dvd (h.start_le.trans_lt h'.near_start)
      (h'.start_le.trans_lt h.near_start)
  subst hstart
  refine ⟨rfl, ?_⟩
  have hnear := h.near_end
  have hnear' := h'.near_end
  split_ifs at hnear hnear' with hempty
  · omega
  · have hle := h.end_le
    have hle' := h'.end_le
    exact eq_of_dvd_near h.size_dvd h'.size_dvd (by omega) (by omega)

/-- The computed hull is the only one. -/
theorem hull_iff (hg : 0 < grain) : Hull grain addr len start size ↔
    start = hullStart grain addr ∧ size = hullSize grain addr len := by
  constructor
  · exact fun h => h.unique (hull_computed hg addr len)
  · rintro ⟨rfl, rfl⟩
    exact hull_computed hg addr len

end

end BankFinder.AlignedHull
