import Mathlib

/-!
# Loops over the bits of a word

Two loops of the address decoders: the parity of a masked word and the integer
logarithm. Each shifts its word right until it is exhausted, so 64 units of fuel
are enough for a 64-bit word. Parity is linear with respect to exclusive or,
which lets an address be split into a page and an offset.
-/

namespace BankFinder.BitLoops

/-- Exclusive or of the low `n` bits of `x`. -/
def oddBits : ℕ → ℕ → Bool
  | 0, _ => false
  | n + 1, x => x.testBit 0 ^^ oddBits n (x / 2)

@[simp] theorem oddBits_zero (n : ℕ) : oddBits n 0 = false := by
  induction n with
  | zero => rfl
  | succ n ih => simp [oddBits, ih]

theorem oddBits_xor (n x y : ℕ) : oddBits n (x ^^^ y) = (oddBits n x ^^ oddBits n y) := by
  induction n generalizing x y with
  | zero => rfl
  | succ n ih =>
      have hhalf : (x ^^^ y) / 2 = x / 2 ^^^ y / 2 := by
        simpa only [Nat.shiftRight_eq_div_pow, Nat.pow_one] using
          Nat.shiftRight_xor_distrib (i := 1) (a := x) (b := y)
      unfold oddBits
      rw [Nat.testBit_xor, hhalf, ih]
      cases x.testBit 0 <;> cases y.testBit 0 <;> simp

theorem oddBits_two_pow {n i : ℕ} (h : i < n) : oddBits n (2 ^ i) = true := by
  induction n generalizing i with
  | zero => exact absurd h (Nat.not_lt_zero i)
  | succ n ih =>
      unfold oddBits
      cases i with
      | zero => simp
      | succ i =>
          have hhalf : 2 ^ (i + 1) / 2 = 2 ^ i := by
            rw [Nat.pow_succ, Nat.mul_div_cancel _ (by decide)]
          rw [hhalf, ih (Nat.lt_of_succ_lt_succ h), Nat.testBit_two_pow]
          simp

/-- The fuel does not matter once it covers the word. -/
theorem oddBits_add {n x : ℕ} (h : x < 2 ^ n) (more : ℕ) :
    oddBits (n + more) x = oddBits n x := by
  induction n generalizing x with
  | zero =>
      have hx : x = 0 := by simpa using h
      rw [hx, oddBits_zero, oddBits_zero]
  | succ n ih =>
      rw [Nat.add_right_comm]
      unfold oddBits
      rw [ih]
      rw [Nat.pow_succ] at h
      omega

theorem oddBits_and_two_pow {n i : ℕ} (h : i < n) (x : ℕ) :
    oddBits n (x &&& 2 ^ i) = x.testBit i := by
  rw [Nat.and_two_pow]
  cases x.testBit i
  · simp
  · simp [oddBits_two_pow h]

/-- Flipping one masked bit flips the parity. -/
theorem oddBits_flip {n j m : ℕ} (hj : j < n) (hm : m.testBit j = true) (x : ℕ) :
    oddBits n ((x ^^^ 2 ^ j) &&& m) = !oddBits n (x &&& m) := by
  have hbit : 2 ^ j &&& m = 2 ^ j := by rw [Nat.and_comm, Nat.and_two_pow, hm]; simp
  rw [Nat.and_xor_distrib_right, hbit, oddBits_xor, oddBits_two_pow hj, Bool.xor_true]

theorem exists_other_bit {m i : ℕ} (h : m ≠ 0) (h' : m ≠ 2 ^ i) :
    ∃ j, j ≠ i ∧ m.testBit j = true := by
  by_contra hnone
  push Not at hnone
  have hzero (j : ℕ) (hj : j ≠ i) : m.testBit j = false := by
    simpa using hnone j hj
  cases hi : m.testBit i with
  | false =>
      obtain ⟨j, hj⟩ := Nat.exists_testBit_of_ne_zero h
      by_cases hji : j = i
      · rw [hji, hi] at hj
        exact Bool.false_ne_true hj
      · rw [hzero j hji] at hj
        exact Bool.false_ne_true hj
  | true =>
      apply h'
      apply Nat.eq_of_testBit_eq
      intro j
      rw [Nat.testBit_two_pow]
      by_cases hji : i = j
      · rw [← hji, hi]
        simp
      · rw [hzero j (Ne.symm hji)]
        simp [hji]

section
variable {n k m : ℕ}

theorem testBit_lt_of_lt (hm : m < 2 ^ k) {j : ℕ} (hj : m.testBit j = true) : j < k := by
  by_contra hge
  have hzero := Nat.testBit_lt_two_pow (hm.trans_le
    (Nat.pow_le_pow_right (by decide) (Nat.le_of_not_lt hge)))
  rw [hzero] at hj
  exact Bool.false_ne_true hj

theorem exists_testBit {i : ℕ} (hi : i < k) (v : Bool) : ∃ x < 2 ^ k, x.testBit i = v := by
  cases v with
  | false => exact ⟨0, Nat.two_pow_pos k, Nat.zero_testBit i⟩
  | true => exact ⟨2 ^ i, Nat.pow_lt_pow_right (by decide) hi, Nat.testBit_two_pow_self⟩

/-- A nonzero mask lets the parity take either value. -/
theorem exists_parity (hk : k ≤ n) (hm : m < 2 ^ k) (hne : m ≠ 0) (b : Bool) :
    ∃ x < 2 ^ k, oddBits n (x &&& m) = b := by
  obtain ⟨j, hj⟩ := Nat.exists_testBit_of_ne_zero hne
  have hjk := testBit_lt_of_lt hm hj
  cases b with
  | false => exact ⟨0, Nat.two_pow_pos k, by simp⟩
  | true =>
      refine ⟨2 ^ j, Nat.pow_lt_pow_right (by decide) hjk, ?_⟩
      have hflip := oddBits_flip (n := n) (by omega) hj 0
      simpa using hflip

/-- A mask with a bit besides `i` lets parity and bit `i` vary independently. -/
theorem exists_parity_testBit (hk : k ≤ n) (hm : m < 2 ^ k) {i : ℕ} (hi : i < k) (hne : m ≠ 0)
    (hne' : m ≠ 2 ^ i) (b v : Bool) :
    ∃ x < 2 ^ k, oddBits n (x &&& m) = b ∧ x.testBit i = v := by
  obtain ⟨j, hji, hj⟩ := exists_other_bit hne hne'
  have hjk := testBit_lt_of_lt hm hj
  obtain ⟨x, hx, hv⟩ := exists_testBit hi v
  by_cases hb : oddBits n (x &&& m) = b
  · exact ⟨x, hx, hb, hv⟩
  · refine ⟨x ^^^ 2 ^ j, Nat.xor_lt_two_pow hx (Nat.pow_lt_pow_right (by decide) hjk), ?_, ?_⟩
    · rw [oddBits_flip (by omega) hj]
      cases b <;> simpa using hb
    · rw [Nat.testBit_xor, hv, Nat.testBit_two_pow_of_ne hji, Bool.xor_false]

end

/-- A field of `w` bits from bit `s` on is known by its bits. -/
theorem field_eq_iff {x y s w : ℕ} : x / 2 ^ s % 2 ^ w = y / 2 ^ s % 2 ^ w ↔
    ∀ i, s ≤ i → i < s + w → x.testBit i = y.testBit i := by
  have hbit (z i : ℕ) : (z / 2 ^ s % 2 ^ w).testBit i =
      (decide (i < w) && z.testBit (s + i)) := by
    rw [Nat.testBit_mod_two_pow, ← Nat.shiftRight_eq_div_pow, Nat.testBit_shiftRight]
  constructor
  · intro h i hlo hhi
    have hi := congrArg (fun z => Nat.testBit z (i - s)) h
    simp only [hbit, Nat.add_sub_cancel' hlo, show i - s < w by omega, decide_true,
      Bool.true_and] at hi
    exact hi
  · intro h
    apply Nat.eq_of_testBit_eq
    intro i
    rw [hbit, hbit]
    by_cases hi : i < w
    · rw [h (s + i) (Nat.le_add_right s i) (Nat.add_lt_add_left hi s)]
    · rw [decide_eq_false hi, Bool.false_and, Bool.false_and]

/-- `while (bits) { parity ^= (bits & 1); bits >>= 1; }` -/
def parityLoop : ℕ → UInt64 → UInt8 → UInt8
  | 0, _, parity => parity
  | fuel + 1, bits, parity =>
      if bits = 0 then parity
      else parityLoop fuel (bits >>> 1) (parity ^^^ (bits &&& 1).toUInt8)

def ofBool (b : Bool) : UInt8 := if b then 1 else 0

theorem ofBool_xor (a b : Bool) : ofBool (a ^^ b) = ofBool a ^^^ ofBool b := by
  cases a <;> cases b <;> rfl

theorem shiftRight_one_toNat (v : UInt64) : (v >>> 1).toNat = v.toNat / 2 := by
  rw [UInt64.toNat_shiftRight]
  exact Nat.shiftRight_eq_div_pow v.toNat 1

theorem lowBit_eq (v : UInt64) : (v &&& 1).toUInt8 = ofBool (v.toNat.testBit 0) := by
  apply UInt8.toNat_inj.mp
  rw [UInt64.toNat_toUInt8, UInt64.toNat_and]
  change (v.toNat &&& 1) % 2 ^ 8 = _
  rw [Nat.and_one_is_mod, Nat.testBit_zero]
  rcases Nat.mod_two_eq_zero_or_one v.toNat with h | h <;> rw [h] <;> rfl

theorem parityLoop_eq (fuel : ℕ) (bits : UInt64) (parity : UInt8) :
    parityLoop fuel bits parity = parity ^^^ ofBool (oddBits fuel bits.toNat) := by
  induction fuel generalizing bits parity with
  | zero => exact (UInt8.xor_zero).symm
  | succ fuel ih =>
      unfold parityLoop
      split_ifs with hbits
      · rw [hbits]
        change parity = parity ^^^ ofBool (oddBits (fuel + 1) 0)
        rw [oddBits_zero]
        exact (UInt8.xor_zero).symm
      · rw [ih, lowBit_eq, shiftRight_one_toNat, UInt8.xor_assoc, ← ofBool_xor]
        rfl

/-- The parity loop on a fresh accumulator. -/
theorem parityLoop_start (bits : UInt64) :
    parityLoop 64 bits 0 = ofBool (oddBits 64 bits.toNat) := by
  rw [parityLoop_eq, UInt8.zero_xor]

theorem parityLoop_ended (bits : UInt64) (parity : UInt8) (more : ℕ) :
    parityLoop (64 + more) bits parity = parityLoop 64 bits parity := by
  rw [parityLoop_eq, parityLoop_eq, oddBits_add bits.toNat_lt]

/-- `while (v > 1) { v >>= 1; bits++; }` -/
def log2Loop : ℕ → UInt64 → UInt32 → UInt32
  | 0, _, bits => bits
  | fuel + 1, v, bits => if v > 1 then log2Loop fuel (v >>> 1) (bits + 1) else bits

theorem log2Loop_eq {fuel : ℕ} {v : UInt64} (hv : v.toNat < 2 ^ fuel) (bits : UInt32) :
    log2Loop fuel v bits = bits + UInt32.ofNat (Nat.log2 v.toNat) := by
  induction fuel generalizing v bits with
  | zero =>
      have hzero : v.toNat = 0 := by simpa using hv
      rw [hzero]
      exact (UInt32.add_zero bits).symm
  | succ fuel ih =>
      have hone : v > 1 ↔ 2 ≤ v.toNat := UInt64.lt_iff_toNat_lt
      unfold log2Loop
      rw [Nat.log2_def]
      split_ifs with hgt hle hle
      · rw [ih, shiftRight_one_toNat, UInt32.ofNat_add, UInt32.add_assoc]
        · congr 1
          exact UInt32.add_comm 1 _
        · rw [shiftRight_one_toNat]
          rw [Nat.pow_succ] at hv
          omega
      · exact absurd (hone.mp hgt) hle
      · exact absurd (hone.mpr hle) hgt
      · exact (UInt32.add_zero bits).symm

end BankFinder.BitLoops
