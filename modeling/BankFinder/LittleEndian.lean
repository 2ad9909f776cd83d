import Mathlib

/-!
# Little-endian byte fields

Fixed-width numbers stored least significant byte first, and arrays of
equal-sized records read back from a byte string.
-/

namespace BankFinder.LittleEndian

/-- The number whose little-endian bytes are `bytes`. -/
def decode : List UInt8 → ℕ
  | [] => 0
  | b :: bytes => b.toNat + 256 * decode bytes

/-- The low `n` bytes of `v`, least significant first. -/
def encode : ℕ → ℕ → List UInt8
  | 0, _ => []
  | n + 1, v => UInt8.ofNat v :: encode n (v / 256)

@[simp] theorem length_encode (n v : ℕ) : (encode n v).length = n := by
  induction n generalizing v with
  | zero => rfl
  | succ n ih => simp only [encode, List.length_cons, ih]

theorem decode_encode (n v : ℕ) : decode (encode n v) = v % 256 ^ n := by
  induction n generalizing v with
  | zero => simp [encode, decode, Nat.mod_one]
  | succ n ih =>
      simp only [encode, decode, ih, UInt8.toNat_ofNat']
      rw [show 256 ^ (n + 1) = 256 * 256 ^ n from Nat.pow_succ', Nat.mod_mul]

theorem decode_encode_of_lt {n v : ℕ} (h : v < 256 ^ n) : decode (encode n v) = v := by
  rw [decode_encode, Nat.mod_eq_of_lt h]

/-- The first `count` records of `n` bytes each. -/
def chunks (n : ℕ) : ℕ → List UInt8 → List (List UInt8)
  | 0, _ => []
  | count + 1, bytes => bytes.take n :: chunks n count (bytes.drop n)

@[simp] theorem length_chunks (n count : ℕ) (bytes : List UInt8) :
    (chunks n count bytes).length = count := by
  induction count generalizing bytes with
  | zero => rfl
  | succ count ih => simp only [chunks, List.length_cons, ih]

theorem chunks_take (n count : ℕ) (bytes : List UInt8) :
    chunks n count (bytes.take (count * n)) = chunks n count bytes := by
  induction count generalizing bytes with
  | zero => rfl
  | succ count ih =>
      have hle : n ≤ (count + 1) * n := Nat.le_mul_of_pos_left n (Nat.succ_pos count)
      have hrest : (count + 1) * n - n = count * n := by
        rw [Nat.succ_mul, Nat.add_sub_cancel]
      unfold chunks
      rw [List.take_take, Nat.min_eq_left hle, List.drop_take, hrest, ih]

/-- Reading back an array of encoded records, whatever follows it. -/
theorem chunks_flatMap {A : Type*} (n : ℕ) (f : A → List UInt8)
    (hf : ∀ a, (f a).length = n) (xs : List A) (rest : List UInt8) :
    chunks n xs.length (xs.flatMap f ++ rest) = xs.map f := by
  induction xs with
  | nil => rfl
  | cons x xs ih =>
      simp only [List.length_cons, chunks, List.flatMap_cons, List.append_assoc, List.map_cons]
      rw [List.take_left' (hf x), List.drop_left' (hf x), ih]

/-- Record by record: where each of them starts. -/
theorem chunks_eq_map (n count : ℕ) (bytes : List UInt8) :
    chunks n count bytes = (List.range count).map fun i => (bytes.drop (n * i)).take n := by
  induction count generalizing bytes with
  | zero => rfl
  | succ count ih =>
      unfold chunks
      rw [ih, List.range_succ_eq_map, List.map_cons, List.map_map, Nat.mul_zero, List.drop_zero]
      congr 1
      refine List.map_congr_left ?_
      intro i _
      rw [List.drop_drop, Function.comp_apply, Nat.mul_succ, Nat.add_comm]

/-- The number in four bytes at `p`. -/
theorem decode_four {bytes : List UInt8} {p : ℕ} (h : p + 4 ≤ bytes.length) :
    decode ((bytes.drop p).take 4) = decode
      [bytes.getD p 0, bytes.getD (p + 1) 0, bytes.getD (p + 2) 0, bytes.getD (p + 3) 0] := by
  have hfour : (bytes.drop p).take 4 =
      [bytes.getD p 0, bytes.getD (p + 1) 0, bytes.getD (p + 2) 0, bytes.getD (p + 3) 0] := by
    rw [List.drop_eq_getElem_cons (by omega), List.drop_eq_getElem_cons (by omega),
      List.drop_eq_getElem_cons (by omega), List.drop_eq_getElem_cons (by omega)]
    simp only [List.take_succ_cons, List.take_zero]
    rw [List.getD_eq_getElem _ _ (by omega), List.getD_eq_getElem _ _ (by omega),
      List.getD_eq_getElem _ _ (by omega), List.getD_eq_getElem _ _ (by omega)]
  rw [hfour]

end BankFinder.LittleEndian
