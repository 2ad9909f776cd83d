import Mathlib

/-!
# Aligned 64-bit words and strided loops

Machine addresses are 64-bit words. Clearing the low bits with a mask is
division and multiplication by a power of two, and a `for` loop which advances
by a fixed step between two multiples of that step visits exactly the multiples
of the step in the half-open range. The loop is given fuel; once the fuel covers
the range, the loop has ended by its own test and more fuel changes nothing.
-/

namespace BankFinder.AlignedWords

/-- Masking away the low `k` of `w` bits rounds down to a multiple of `2 ^ k`. -/
theorem and_highMask {w k x : ℕ} (hk : k ≤ w) (hx : x < 2 ^ w) :
    x &&& (2 ^ w - 2 ^ k) = x / 2 ^ k * 2 ^ k := by
  have hmask : 2 ^ w - 2 ^ k = (2 ^ (w - k) - 1) <<< k := by
    rw [Nat.shiftLeft_eq, Nat.sub_mul, ← Nat.pow_add, Nat.sub_add_cancel hk, Nat.one_mul]
  rw [hmask, ← Nat.shiftRight_eq_div_pow, ← Nat.shiftLeft_eq]
  apply Nat.eq_of_testBit_eq
  intro i
  simp only [Nat.testBit_and, Nat.testBit_shiftLeft, Nat.testBit_shiftRight,
    Nat.testBit_two_pow_sub_one]
  by_cases hi : k ≤ i
  · rw [Nat.add_sub_cancel' hi]
    by_cases hw : i < w
    · simp [hi, show i - k < w - k by omega]
    · have hzero : x.testBit i = false :=
        Nat.testBit_lt_two_pow (hx.trans_le (Nat.pow_le_pow_right (by omega) (by omega)))
      simp [hzero]
  · simp [hi]

/-- `x` is a multiple of `2 ^ k`. -/
def Aligned (k : ℕ) (x : UInt64) : Prop := 2 ^ k ∣ x.toNat

instance (k : ℕ) (x : UInt64) : Decidable (Aligned k x) :=
  inferInstanceAs (Decidable (_ ∣ _))

/-- Clear the bits of `low`, as in `x & ~low`. -/
def clear (x low : UInt64) : UInt64 := x &&& ~~~low

theorem clear_toNat {k : ℕ} (hk : k ≤ 64) {low : UInt64} (hlow : low.toNat = 2 ^ k - 1)
    (x : UInt64) : (clear x low).toNat = x.toNat / 2 ^ k * 2 ^ k := by
  have hpos : 0 < 2 ^ k := Nat.two_pow_pos k
  have hmask : UInt64.size - 1 - low.toNat = 2 ^ 64 - 2 ^ k := by
    rw [hlow]
    simp only [UInt64.size]
    omega
  rw [clear, UInt64.toNat_and, UInt64.toNat_not, hmask]
  exact and_highMask hk x.toNat_lt

/-- A hexadecimal digit is appended to a number. -/
theorem push_nibble (v : ℕ) {d : UInt64} (hd : d.toNat < 16) :
    (UInt64.ofNat v <<< 4) ||| d = UInt64.ofNat (v * 16 + d.toNat) := by
  have hshift : (v % 2 ^ 64) <<< ((4 : UInt64).toNat % 64) % 2 ^ 64 = (v % 2 ^ 60) <<< 4 := by
    simp only [Nat.shiftLeft_eq]
    simp
    omega
  apply UInt64.toNat_inj.mp
  rw [UInt64.toNat_or, UInt64.toNat_shiftLeft]
  simp only [UInt64.toNat_ofNat']
  rw [hshift, ← Nat.shiftLeft_add_eq_or_of_lt hd, Nat.shiftLeft_eq]
  omega

theorem clear_aligned {k : ℕ} (hk : k ≤ 64) {low : UInt64} (hlow : low.toNat = 2 ^ k - 1)
    (x : UInt64) : Aligned k (clear x low) := by
  rw [Aligned, clear_toNat hk hlow]
  exact Nat.dvd_mul_left _ _

/-- The values of `pa` in `for (pa = lo; pa < hi; pa += step)`, in order. -/
def stride (step : UInt64) : ℕ → UInt64 → UInt64 → List UInt64
  | 0, _, _ => []
  | fuel + 1, lo, hi => if lo < hi then lo :: stride step fuel (lo + step) hi else []

section
variable {step lo hi : UInt64}

/-- One step between two multiples of the step neither wraps nor overshoots. -/
theorem stride_next (hlo : step.toNat ∣ lo.toNat) (hhi : step.toNat ∣ hi.toNat)
    (h : lo < hi) : (lo + step).toNat = lo.toNat + step.toNat ∧
      lo.toNat + step.toNat ≤ hi.toNat := by
  obtain ⟨a, ha⟩ := hlo
  obtain ⟨b, hb⟩ := hhi
  rw [UInt64.lt_iff_toNat_lt, ha, hb] at h
  have hab : a + 1 ≤ b := Nat.lt_of_mul_lt_mul_left h
  have hle : lo.toNat + step.toNat ≤ hi.toNat := by
    have := Nat.mul_le_mul_left step.toNat hab
    rw [ha, hb]
    linarith
  refine ⟨?_, hle⟩
  rw [UInt64.toNat_add]
  exact Nat.mod_eq_of_lt (hle.trans_lt hi.toNat_lt)

theorem dvd_next (hlo : step.toNat ∣ lo.toNat) (hhi : step.toNat ∣ hi.toNat) (h : lo < hi) :
    step.toNat ∣ (lo + step).toNat := by
  rw [(stride_next hlo hhi h).1]
  exact Nat.dvd_add hlo (Nat.dvd_refl _)

theorem mem_stride (hpos : 0 < step.toNat) (hlo : step.toNat ∣ lo.toNat)
    (hhi : step.toNat ∣ hi.toNat) (fuel : ℕ)
    (hfuel : hi.toNat ≤ lo.toNat + fuel * step.toNat) (x : UInt64) :
    x ∈ stride step fuel lo hi ↔ lo ≤ x ∧ x < hi ∧ step.toNat ∣ x.toNat := by
  induction fuel generalizing lo with
  | zero =>
      simp only [stride, List.not_mem_nil, false_iff, not_and, UInt64.le_iff_toNat_le,
        UInt64.lt_iff_toNat_lt]
      omega
  | succ fuel ih =>
      simp only [stride]
      split_ifs with h
      · obtain ⟨hnext, hle⟩ := stride_next hlo hhi h
        have hdvd := dvd_next hlo hhi h
        have hcover : hi.toNat ≤ (lo + step).toNat + fuel * step.toNat := by
          rw [hnext]
          linarith [Nat.succ_mul fuel step.toNat]
        rw [List.mem_cons, ih hdvd hcover]
        simp only [UInt64.le_iff_toNat_le, UInt64.lt_iff_toNat_lt, hnext] at h ⊢
        constructor
        · rintro (rfl | ⟨hx, hxh, hxd⟩)
          · exact ⟨Nat.le_refl _, h, hlo⟩
          · exact ⟨by omega, hxh, hxd⟩
        · rintro ⟨hx, hxh, hxd⟩
          rcases Nat.eq_or_lt_of_le hx with heq | hlt
          · exact Or.inl (UInt64.toNat_inj.mp heq.symm)
          · refine Or.inr ⟨?_, hxh, hxd⟩
            have hgap := Nat.le_of_dvd (by omega) (Nat.dvd_sub hxd hlo)
            omega
      · simp only [List.not_mem_nil, false_iff, not_and, UInt64.le_iff_toNat_le,
          UInt64.lt_iff_toNat_lt] at h ⊢
        omega

theorem le_of_mem_stride (hlo : step.toNat ∣ lo.toNat) (hhi : step.toNat ∣ hi.toNat) (fuel : ℕ)
    {x : UInt64} (hx : x ∈ stride step fuel lo hi) : lo ≤ x := by
  induction fuel generalizing lo with
  | zero => exact absurd hx List.not_mem_nil
  | succ fuel ih =>
      simp only [stride] at hx
      split_ifs at hx with h
      · obtain ⟨hnext, -⟩ := stride_next hlo hhi h
        rcases List.mem_cons.mp hx with rfl | hx
        · exact UInt64.le_refl _
        · have hle := ih (dvd_next hlo hhi h) hx
          rw [UInt64.le_iff_toNat_le] at hle ⊢
          omega
      · exact absurd hx List.not_mem_nil

theorem stride_sorted (hlo : step.toNat ∣ lo.toNat) (hhi : step.toNat ∣ hi.toNat)
    (hpos : 0 < step.toNat) (fuel : ℕ) : (stride step fuel lo hi).Pairwise (· < ·) := by
  induction fuel generalizing lo with
  | zero => exact List.Pairwise.nil
  | succ fuel ih =>
      simp only [stride]
      split_ifs with h
      · obtain ⟨hnext, -⟩ := stride_next hlo hhi h
        have hdvd := dvd_next hlo hhi h
        refine List.Pairwise.cons ?_ (ih hdvd)
        intro x hx
        have hle := le_of_mem_stride hdvd hhi fuel hx
        rw [UInt64.le_iff_toNat_le] at hle
        rw [UInt64.lt_iff_toNat_lt]
        omega
      · exact List.Pairwise.nil

theorem stride_length (hlo : step.toNat ∣ lo.toNat) (hhi : step.toNat ∣ hi.toNat)
    (hpos : 0 < step.toNat) (fuel : ℕ) (hfuel : hi.toNat ≤ lo.toNat + fuel * step.toNat) :
    (stride step fuel lo hi).length = (hi.toNat - lo.toNat) / step.toNat := by
  induction fuel generalizing lo with
  | zero =>
      rw [stride, List.length_nil, Nat.sub_eq_zero_of_le (by omega), Nat.zero_div]
  | succ fuel ih =>
      simp only [stride]
      split_ifs with h
      · obtain ⟨hnext, hle⟩ := stride_next hlo hhi h
        have hcover : hi.toNat ≤ (lo + step).toNat + fuel * step.toNat := by
          rw [hnext]
          linarith [Nat.succ_mul fuel step.toNat]
        rw [List.length_cons, ih (dvd_next hlo hhi h) hcover, hnext, Nat.sub_add_eq,
          ← Nat.add_div_right _ hpos, Nat.sub_add_cancel (by omega)]
      · rw [UInt64.lt_iff_toNat_lt, not_lt] at h
        rw [List.length_nil, Nat.sub_eq_zero_of_le h, Nat.zero_div]

/-- Fuel beyond the range is never used: the loop has stopped by its own test. -/
theorem stride_fuel (hlo : step.toNat ∣ lo.toNat) (hhi : step.toNat ∣ hi.toNat)
    (fuel more : ℕ) (hfuel : hi.toNat ≤ lo.toNat + fuel * step.toNat) :
    stride step (fuel + more) lo hi = stride step fuel lo hi := by
  induction fuel generalizing lo with
  | zero =>
      cases more with
      | zero => rfl
      | succ more =>
          simp only [stride]
          rw [if_neg]
          rw [UInt64.lt_iff_toNat_lt]
          omega
  | succ fuel ih =>
      rw [Nat.add_right_comm]
      simp only [stride]
      split_ifs with h
      · obtain ⟨hnext, hle⟩ := stride_next hlo hhi h
        rw [ih (dvd_next hlo hhi h)]
        rw [hnext]
        linarith [Nat.succ_mul fuel step.toNat]
      · rfl

end
end BankFinder.AlignedWords
