import BankFinder.CellBits

/-!
# Address pairs of the decoder self-test

The self-test measures two kinds of pairs: a row hit and a bank conflict. `find_row_hit` and
`find_bank_conflict` take the first page of the buffer and look for a second page whose
decoded bank and row stand in the right relation to it. Channel and rank are not compared.
-/

namespace BankFinder.SelftestPairs
open BitLoops CflSkl PageDecode CellBits

def bufPages : ℕ := 1024
def bufBytes : ℕ := 4194304

/-- `pa_base + i * PAGE_BYTES` -/
def pageAt (paBase : UInt64) (i : ℕ) : UInt64 := paBase + UInt64.ofNat i * 4096

/-- The loop of the three searches over the pages `i`; `first` is `first` with `first_pa`, once
there is one. The offsets of both pointers from `buf` are returned. -/
def pairLoop (decode : UInt64 → PaDecoded) (wanted : UInt64 × PaDecoded → UInt64 × PaDecoded → Bool)
    (paBase : UInt64) : List ℕ → Option (UInt64 × PaDecoded) → Option (UInt64 × UInt64)
  | [], _ => none
  | i :: is, first =>
      let pa := pageAt paBase i
      let d := decode pa
      if !d.valid || !d.bankRowValid then pairLoop decode wanted paBase is first
      else
        match first with
        | none => pairLoop decode wanted paBase is (some (pa, d))
        | some f =>
            if wanted f (pa, d) then some (f.1 - paBase, pa - paBase)
            else pairLoop decode wanted paBase is (some f)

def findPair (host : McHost) (wanted : UInt64 × PaDecoded → UInt64 × PaDecoded → Bool)
    (paBase : UInt64) : Option (UInt64 × UInt64) :=
  pairLoop (imcDecodePa host) wanted paBase (List.range bufPages) none

def findRowHit (host : McHost) (paBase : UInt64) : Option (UInt64 × UInt64) :=
  findPair host (fun first p => p.2.bankGroup == first.2.bankGroup && p.2.bank == first.2.bank &&
    p.2.row == first.2.row && p.1 != first.1) paBase

def findBankConflict (host : McHost) (paBase : UInt64) : Option (UInt64 × UInt64) :=
  findPair host (fun first p => p.2.bankGroup == first.2.bankGroup && p.2.bank == first.2.bank &&
    p.2.row != first.2.row) paBase

def findDiffBank (host : McHost) (paBase : UInt64) : Option (UInt64 × UInt64) :=
  findPair host (fun first p => p.2.bankGroup != first.2.bankGroup || p.2.bank != first.2.bank)
    paBase

structure SameBank (d e : PaDecoded) : Prop where
  channel : d.channel = e.channel
  rank : d.rank = e.rank
  bankGroup : d.bankGroup = e.bankGroup
  bank : d.bank = e.bank

/-- Both offsets are those of whole pages of the buffer, with this relation between the
addresses there. -/
def PairOf (host : McHost) (paBase : UInt64) (rel : PaDecoded → PaDecoded → Prop)
    (p : UInt64 × UInt64) : Prop :=
  p.1.toNat + 4096 ≤ bufBytes ∧ p.2.toNat + 4096 ≤ bufBytes ∧
    rel (imcDecodePa host (paBase + p.1)) (imcDecodePa host (paBase + p.2))

structure Measures (host : McHost) (paBase : UInt64) : Prop where
  rowHit : ∀ p, findRowHit host paBase = some p →
    PairOf host paBase (fun d e => SameBank d e ∧ d.row = e.row ∧ d.col ≠ e.col) p
  conflict : ∀ p, findBankConflict host paBase = some p →
    PairOf host paBase (fun d e => SameBank d e ∧ d.row ≠ e.row) p

section
variable {paBase : UInt64} {q : ℕ}

theorem pageAt_toNat (hbase : paBase.toNat = 4096 * q) (i : ℕ) :
    (pageAt paBase i).toNat = 4096 * (q + i) % 2 ^ 64 := by
  have hpage : (4096 : UInt64).toNat = 4096 := rfl
  rw [pageAt, UInt64.toNat_add, UInt64.toNat_mul, UInt64.toNat_ofNat', hbase, hpage]
  omega

theorem testBit_pageAt (hbase : paBase.toNat = 4096 * q) (i : ℕ) {j : ℕ} (hj : j < 64) :
    (pageAt paBase i).toNat.testBit j = (decide (12 ≤ j) && (q + i).testBit (j - 12)) := by
  rw [pageAt_toNat hbase, Nat.testBit_mod_two_pow, decide_eq_true hj, Bool.true_and,
    show 4096 = 2 ^ 12 from rfl, Nat.testBit_two_pow_mul]

theorem pageAt_zero (paBase : UInt64) : pageAt paBase 0 = paBase := by
  change paBase + 0 * 4096 = paBase
  rw [UInt64.zero_mul, UInt64.add_zero]

theorem testBit_base (hbase : paBase.toNat = 4096 * q) {j : ℕ} (hj : j < 64) :
    paBase.toNat.testBit j = (decide (12 ≤ j) && q.testBit (j - 12)) := by
  have hzero := testBit_pageAt hbase 0 hj
  rwa [pageAt_zero, Nat.add_zero] at hzero

theorem pageAt_sub (paBase : UInt64) (i : ℕ) :
    pageAt paBase i - paBase = UInt64.ofNat i * 4096 := by
  rw [pageAt, UInt64.add_comm, UInt64.add_sub_cancel]

theorem offset_toNat {i : ℕ} (hi : i < bufPages) : (UInt64.ofNat i * 4096).toNat = i * 4096 := by
  have hpage : (4096 : UInt64).toNat = 4096 := rfl
  unfold bufPages at hi
  rw [UInt64.toNat_mul, UInt64.toNat_ofNat', hpage]
  omega

end

theorem decode_of_config {host : McHost} {mc : McConfig} (h : cflSklConfig host = some mc)
    (pa : UInt64) : imcDecodePa host pa = cflSklDecodePa (some mc) pa := by
  have hdetect : cflSklDetect host = true := by
    by_contra hno
    unfold cflSklConfig at h
    rw [Bool.not_eq_true] at hno
    rw [hno] at h
    exact absurd h (by simp)
  rw [imcDecodePa, if_pos hdetect, h]

theorem pairLoop_some {decode : UInt64 → PaDecoded}
    (hvalid : ∀ pa, (decode pa).valid = true ∧ (decode pa).bankRowValid = true)
    (wanted : UInt64 × PaDecoded → UInt64 × PaDecoded → Bool) (paBase : UInt64) (is : List ℕ)
    (f : UInt64 × PaDecoded) : pairLoop decode wanted paBase is (some f) =
      (is.find? fun i => wanted f (pageAt paBase i, decode (pageAt paBase i))).map
        fun i => (f.1 - paBase, pageAt paBase i - paBase) := by
  induction is with
  | nil => rfl
  | cons i is ih =>
      unfold pairLoop
      simp only [hvalid, Bool.not_true, Bool.or_self, Bool.false_eq_true, if_false]
      rw [List.find?_cons]
      cases wanted f (pageAt paBase i, decode (pageAt paBase i)) with
      | true => rfl
      | false => exact ih

/-- The first page is the page at the base, and the second the next one which is wanted. -/
theorem findPair_eq {host : McHost} {mc : McConfig} (h : cflSklConfig host = some mc)
    (wanted : UInt64 × PaDecoded → UInt64 × PaDecoded → Bool) (paBase : UInt64) :
    findPair host wanted paBase =
      ((List.range' 1 1023).find? fun i => wanted (paBase, cflSklDecodePa (some mc) paBase)
        (pageAt paBase i, cflSklDecodePa (some mc) (pageAt paBase i))).map
          fun i => (0, UInt64.ofNat i * 4096) := by
  have hvalid (pa : UInt64) : (imcDecodePa host pa).valid = true ∧
      (imcDecodePa host pa).bankRowValid = true := by
    rw [decode_of_config h]
    exact ⟨rfl, rfl⟩
  have hrange : List.range bufPages = 0 :: List.range' 1 1023 := by
    rw [List.range_eq_range']
    rfl
  unfold findPair
  rw [hrange, pairLoop]
  simp only [hvalid, Bool.not_true, Bool.or_self, Bool.false_eq_true, if_false]
  rw [pairLoop_some hvalid]
  simp only [pageAt_zero, pageAt_sub, decode_of_config h, UInt64.sub_self]

/-- Bits 12 and 13 of the address together. -/
def pairBit (q : ℕ) : Bool := q.testBit 0 ^^ q.testBit 1

/-- The page numbers agree in the address bits of bank group and bank. -/
def BankBits (q r : ℕ) : Prop :=
  q.testBit 2 = r.testBit 2 ∧
    (pairBit q ^^ q.testBit 6 ^^ q.testBit 7) = (pairBit r ^^ r.testBit 6 ^^ r.testBit 7) ∧
    (q.testBit 3 ^^ q.testBit 6) = (r.testBit 3 ^^ r.testBit 6) ∧
    (q.testBit 4 ^^ q.testBit 7) = (r.testBit 4 ^^ r.testBit 7)

section
variable {mc : McConfig} {paBase : UInt64} {q : ℕ}

theorem bankBits_iff (mc : McConfig) (hbase : paBase.toNat = 4096 * q) (i : ℕ) :
    ((cflSklDecodePa (some mc) (pageAt paBase i)).bankGroup =
        (cflSklDecodePa (some mc) paBase).bankGroup ∧
      (cflSklDecodePa (some mc) (pageAt paBase i)).bank =
        (cflSklDecodePa (some mc) paBase).bank) ↔ BankBits q (q + i) := by
  have hpage (j : ℕ) (hj : j < 64) := testBit_pageAt hbase i hj
  have hzero (j : ℕ) (hj : j < 64) := testBit_base hbase hj
  rw [bankGroup_eq_iff, bank_eq_iff, hpage 7 (by decide), hpage 8 (by decide),
    hpage 9 (by decide), hpage 12 (by decide), hpage 13 (by decide), hpage 14 (by decide),
    hpage 15 (by decide), hpage 16 (by decide), hpage 18 (by decide), hpage 19 (by decide),
    hzero 7 (by decide), hzero 8 (by decide), hzero 9 (by decide), hzero 12 (by decide),
    hzero 13 (by decide), hzero 14 (by decide), hzero 15 (by decide), hzero 16 (by decide),
    hzero 18 (by decide), hzero 19 (by decide)]
  simp [BankBits, pairBit, eq_comm, and_assoc]

/-- Pages of the buffer are in one row exactly when they are in one block of 64 pages. -/
theorem sameRow_iff (h : Valid mc) (hbase : paBase.toNat = 4096 * q) {i : ℕ} (hi : i < bufPages) :
    (cflSklDecodePa (some mc) (pageAt paBase i)).row = (cflSklDecodePa (some mc) paBase).row ↔
      (q + i) / 64 = q / 64 := by
  obtain ⟨hlow, hhigh⟩ := rowWidth_bounds h
  have hfield : (cflSklDecodePa (some mc) (pageAt paBase i)).row =
      (cflSklDecodePa (some mc) paBase).row ↔
        (q + i) / 2 ^ 6 % 2 ^ rowWidth mc = q / 2 ^ 6 % 2 ^ rowWidth mc := by
    rw [row_eq_iff h, field_eq_iff]
    constructor
    · intro hbits j hlo hhi
      have hj := hbits (j + 12) (by omega) (by omega)
      rw [testBit_pageAt hbase i (by omega), testBit_base hbase (by omega)] at hj
      simpa using hj
    · intro hbits j hlo hhi
      rw [testBit_pageAt hbase i (by omega), testBit_base hbase (by omega),
        hbits (j - 12) (by omega) (by omega)]
  rw [hfield]
  constructor
  · intro hmod
    have hwide : 2 ^ 10 ≤ 2 ^ rowWidth mc := Nat.pow_le_pow_right (by decide) hlow
    have hdvd := (Nat.modEq_iff_dvd' (show q / 2 ^ 6 ≤ (q + i) / 2 ^ 6 from
      Nat.div_le_div_right (Nat.le_add_right q i))).mp hmod.symm
    unfold bufPages at hi
    have hzero := Nat.eq_zero_of_dvd_of_lt hdvd (by omega)
    omega
  · intro hsame
    have hsame' : (q + i) / 2 ^ 6 = q / 2 ^ 6 := hsame
    rw [hsame']

end

instance (q r : ℕ) : Decidable (BankBits q r) := inferInstanceAs (Decidable (_ ∧ _ ∧ _ ∧ _))

theorem pairBit_eq (q : ℕ) : pairBit q = decide (q % 4 = 1 ∨ q % 4 = 2) := by
  unfold pairBit
  rw [Nat.testBit_zero, Nat.testBit_eq_decide_div_mod_eq, Nat.pow_one]
  have hlt : q % 4 < 4 := Nat.mod_lt q (by decide)
  rw [show q % 2 = q % 4 % 2 by omega, show q / 2 % 2 = q % 4 / 2 by omega]
  generalize q % 4 = x at hlt
  interval_cases x <;> rfl

/-- The bits 14 to 16 of the address as a number. -/
theorem testBits_eq_iff {q r : ℕ} : q / 4 % 8 = r / 4 % 8 ↔
    q.testBit 2 = r.testBit 2 ∧ q.testBit 3 = r.testBit 3 ∧ q.testBit 4 = r.testBit 4 := by
  change q / 2 ^ 2 % 2 ^ 3 = r / 2 ^ 2 % 2 ^ 3 ↔ _
  rw [field_eq_iff]
  constructor
  · intro h
    exact ⟨h 2 (by decide) (by decide), h 3 (by decide) (by decide), h 4 (by decide) (by decide)⟩
  · rintro ⟨h2, h3, h4⟩ j hlo hhi
    obtain rfl | rfl | rfl : j = 2 ∨ j = 3 ∨ j = 4 := by omega
    · exact h2
    · exact h3
    · exact h4

theorem testBit_block {q r : ℕ} (h : r / 64 = q / 64) {j : ℕ} (hj : 6 ≤ j) :
    r.testBit j = q.testBit j := by
  have hr := Nat.testBit_div_two_pow r (n := 6) (j - 6)
  have hq := Nat.testBit_div_two_pow q (n := 6) (j - 6)
  rw [Nat.sub_add_cancel hj] at hr hq
  rw [← hr, ← hq]
  exact congrArg (fun x => Nat.testBit x (j - 6)) h

/-- In one block only the bits within the block count. -/
theorem bankBits_sameBlock {q r : ℕ} (h : r / 64 = q / 64) :
    BankBits q r ↔ q / 4 % 8 = r / 4 % 8 ∧ pairBit q = pairBit r := by
  unfold BankBits
  rw [testBits_eq_iff, testBit_block h (by decide : 6 ≤ 6), testBit_block h (by decide : 6 ≤ 7)]
  simp only [Bool.xor_left_inj]
  constructor
  · rintro ⟨h2, hpair, h3, h4⟩
    exact ⟨⟨h2, h3, h4⟩, hpair⟩
  · rintro ⟨⟨h2, h3, h4⟩, hpair⟩
    exact ⟨h2, hpair, h3, h4⟩

/-- In the next block bit 18 of the address is flipped, and bit 19 if bit 18 was set. -/
theorem bankBits_nextBlock {q r : ℕ} (h : r / 64 = q / 64 + 1) :
    BankBits q r ↔ r.testBit 2 = q.testBit 2 ∧ r.testBit 3 = !q.testBit 3 ∧
      r.testBit 4 = (q.testBit 4 ^^ q.testBit 6) ∧ pairBit r = (pairBit q ^^ !q.testBit 6) := by
  have hbit (x : ℕ) (j : ℕ) : x.testBit (6 + j) = decide (x / 64 / 2 ^ j % 2 = 1) := by
    rw [Nat.testBit_eq_decide_div_mod_eq, Nat.pow_add, ← Nat.div_div_eq_div_mul]
  have h6 : r.testBit 6 = !q.testBit 6 := by
    rw [hbit r 0, hbit q 0, h, Nat.pow_zero, Nat.div_one, Nat.div_one]
    rcases Nat.mod_two_eq_zero_or_one (q / 64) with hx | hx
    · rw [hx, show (q / 64 + 1) % 2 = 1 by omega]
      rfl
    · rw [hx, show (q / 64 + 1) % 2 = 0 by omega]
      rfl
  have h7 : r.testBit 7 = (q.testBit 7 ^^ q.testBit 6) := by
    rw [hbit r 1, hbit q 1, hbit q 0, h, Nat.pow_zero, Nat.div_one, Nat.pow_one]
    have hlt : q / 64 % 4 < 4 := Nat.mod_lt _ (by decide)
    rw [show (q / 64 + 1) / 2 % 2 = (q / 64 % 4 + 1) / 2 % 2 by omega,
      show q / 64 / 2 % 2 = q / 64 % 4 / 2 by omega, show q / 64 % 2 = q / 64 % 4 % 2 by omega]
    generalize q / 64 % 4 = x at hlt
    interval_cases x <;> rfl
  have hflip (a b c : Bool) : (a ^^ b) = (c ^^ !b) ↔ c = !a := by
    cases a <;> cases b <;> cases c <;> decide
  have hcarry (a b c d : Bool) : (a ^^ b) = (c ^^ (b ^^ d)) ↔ c = (a ^^ d) := by
    cases a <;> cases b <;> cases c <;> cases d <;> decide
  have hpair (a b c d : Bool) : (a ^^ b ^^ c) = (d ^^ !b ^^ (c ^^ b)) ↔ d = (a ^^ !b) := by
    cases a <;> cases b <;> cases c <;> cases d <;> decide
  unfold BankBits
  rw [h6, h7, hpair, hflip, hcarry]
  constructor
  · rintro ⟨h2, hp, h3, h4⟩
    exact ⟨h2.symm, h3, h4, hp⟩
  · rintro ⟨h2, h3, h4, hp⟩
    exact ⟨h2.symm, hp, h3, h4⟩

/-- How many pages behind the first one it is. -/
def rowHitStep (q : ℕ) : Option ℕ :=
  if q.testBit 1 = false then some ((q ^^^ 3) - q)
  else if q.testBit 5 = false then some ((q ^^^ 0x23) - q)
  else none

theorem xor_in_block (q : ℕ) {d : ℕ} (hd : d < 64) : q ^^^ d = 64 * (q / 64) + (q % 64 ^^^ d) := by
  have hdiv : (q ^^^ d) / 2 ^ 6 = q / 2 ^ 6 := by
    rw [← Nat.shiftRight_eq_div_pow, Nat.shiftRight_xor_distrib, Nat.shiftRight_eq_div_pow,
      Nat.shiftRight_eq_div_pow, Nat.div_eq_of_lt hd, Nat.xor_zero]
  have hmod : (q ^^^ d) % 2 ^ 6 = q % 2 ^ 6 ^^^ d := by
    rw [Nat.xor_mod_two_pow, Nat.mod_eq_of_lt hd]
  have hsplit := Nat.div_add_mod (q ^^^ d) (2 ^ 6)
  rw [hdiv, hmod] at hsplit
  exact hsplit.symm

/-- Flipping both lowest bits. -/
theorem xor_three (q : ℕ) : q ^^^ 3 = 4 * (q / 4) + (3 - q % 4) := by
  have hsmall : ∀ x < 64, x ^^^ 3 = 4 * (x / 4) + (3 - x % 4) := by decide
  rw [xor_in_block q (by decide), hsmall _ (Nat.mod_lt q (by decide))]
  omega

/-- Flipping bit 5 of a number which does not have it, and both lowest bits. -/
theorem xor_thirtyFive {q : ℕ} (h : q / 32 % 2 = 0) :
    q ^^^ 0x23 = 4 * (q / 4) + 32 + (3 - q % 4) := by
  have hsmall : ∀ x < 32, x ^^^ 0x23 = 4 * (x / 4) + 32 + (3 - x % 4) := by decide
  rw [xor_in_block q (by decide), hsmall (q % 64) (by omega)]
  omega

theorem rowHitStep_none {q : ℕ} (h : rowHitStep q = none) {i : ℕ} (hi : 1 ≤ i) :
    ¬((q + i) / 64 = q / 64 ∧ BankBits q (q + i)) := by
  rintro ⟨hblock, hbits⟩
  obtain ⟨hmid, hpair⟩ := (bankBits_sameBlock hblock).mp hbits
  unfold rowHitStep at h
  split_ifs at h with h1 h5
  rw [Nat.testBit_eq_decide_div_mod_eq] at h1 h5
  rw [pairBit_eq, pairBit_eq, decide_eq_decide] at hpair
  simp only [decide_eq_false_iff_not, not_not] at h1 h5
  omega

theorem rowHitStep_some {q i : ℕ} (h : rowHitStep q = some i) :
    1 ≤ i ∧ i < 64 ∧ ((q + i) / 64 = q / 64 ∧ BankBits q (q + i)) ∧ (q + i) % 2 ≠ q % 2 := by
  have hcases : i = 4 * (q / 4) + (3 - q % 4) - q ∧ q / 2 % 2 = 0 ∨
      i = 4 * (q / 4) + 32 + (3 - q % 4) - q ∧ q / 2 % 2 = 1 ∧ q / 32 % 2 = 0 := by
    unfold rowHitStep at h
    split_ifs at h with h1 h5
    · obtain rfl := Option.some.inj h
      rw [Nat.testBit_eq_decide_div_mod_eq, decide_eq_false_iff_not] at h1
      rw [xor_three]
      exact Or.inl ⟨rfl, by omega⟩
    · obtain rfl := Option.some.inj h
      rw [Nat.testBit_eq_decide_div_mod_eq, decide_eq_false_iff_not] at h1 h5
      rw [xor_thirtyFive (by omega)]
      exact Or.inr ⟨rfl, by omega, by omega⟩
  have hblock : (q + i) / 64 = q / 64 := by omega
  refine ⟨by omega, by omega, ⟨hblock, (bankBits_sameBlock hblock).mpr ⟨by omega, ?_⟩⟩, by omega⟩
  rw [pairBit_eq, pairBit_eq, decide_eq_decide]
  omega

/-- No page before it will do. -/
theorem rowHitStep_first {q i j : ℕ} (h : rowHitStep q = some i) (hj : 1 ≤ j) (hji : j < i) :
    ¬((q + j) / 64 = q / 64 ∧ BankBits q (q + j)) := by
  rintro ⟨hblock, hbits⟩
  obtain ⟨hmid, hpair⟩ := (bankBits_sameBlock hblock).mp hbits
  rw [pairBit_eq, pairBit_eq, decide_eq_decide] at hpair
  unfold rowHitStep at h
  split_ifs at h with h1 h5
  · obtain rfl := Option.some.inj h
    rw [Nat.testBit_eq_decide_div_mod_eq, decide_eq_false_iff_not] at h1
    rw [xor_three] at hji
    omega
  · obtain rfl := Option.some.inj h
    rw [Nat.testBit_eq_decide_div_mod_eq, decide_eq_false_iff_not] at h1 h5
    rw [xor_thirtyFive (by omega)] at hji
    omega

/-- The page within the next block of 64 pages. -/
def conflictRest (q : ℕ) : ℕ :=
  16 * (q.testBit 4 ^^ q.testBit 6).toNat + 8 * (!q.testBit 3).toNat + 4 * (q.testBit 2).toNat +
    (pairBit q ^^ !q.testBit 6).toNat

theorem conflictRest_bits (q : ℕ) : conflictRest q < 32 ∧ conflictRest q % 4 < 2 ∧
    (conflictRest q).testBit 2 = q.testBit 2 ∧ (conflictRest q).testBit 3 = !q.testBit 3 ∧
      (conflictRest q).testBit 4 = (q.testBit 4 ^^ q.testBit 6) ∧
      pairBit (conflictRest q) = (pairBit q ^^ !q.testBit 6) := by
  have hbits (a b c d : Bool) (x : ℕ) (hx : x = 16 * a.toNat + 8 * b.toNat + 4 * c.toNat + d.toNat) :
      x < 32 ∧ x % 4 < 2 ∧ x.testBit 2 = c ∧ x.testBit 3 = b ∧ x.testBit 4 = a ∧ pairBit x = d := by
    rw [hx]
    cases a <;> cases b <;> cases c <;> cases d <;> decide
  exact hbits _ _ _ _ _ rfl

/-- The page number of the bank conflict. -/
def conflictNumber (q : ℕ) : ℕ := 64 * (q / 64 + 1) + conflictRest q

theorem testBit_low (n : ℕ) {z j : ℕ} (hj : j < 6) : (64 * n + z).testBit j = z.testBit j := by
  have hz := Nat.testBit_mod_two_pow z 6 j
  have hn := Nat.testBit_mod_two_pow (64 * n + z) 6 j
  rw [decide_eq_true hj, Bool.true_and] at hz hn
  rw [← hz, ← hn, show (64 * n + z) % 2 ^ 6 = z % 2 ^ 6 by omega]

theorem conflictNumber_bankBits (q : ℕ) : BankBits q (conflictNumber q) := by
  obtain ⟨hlt, -, h2, h3, h4, hpair⟩ := conflictRest_bits q
  have hblock : conflictNumber q / 64 = q / 64 + 1 := by
    unfold conflictNumber
    omega
  rw [bankBits_nextBlock hblock]
  unfold conflictNumber pairBit
  rw [testBit_low _ (by decide), testBit_low _ (by decide), testBit_low _ (by decide),
    testBit_low _ (by decide), testBit_low _ (by decide)]
  exact ⟨h2, h3, h4, hpair⟩

/-- No page of another row before it is in the same bank. -/
theorem conflictNumber_first {q r : ℕ} (hqr : q < r) (hrow : r / 64 ≠ q / 64)
    (hbits : BankBits q r) : conflictNumber q ≤ r := by
  obtain ⟨hlt, hlow, h2, h3, h4, hpair⟩ := conflictRest_bits q
  by_cases hnext : r / 64 = q / 64 + 1
  · obtain ⟨hr2, hr3, hr4, hrpair⟩ := (bankBits_nextBlock hnext).mp hbits
    have hmid : conflictRest q / 4 % 8 = r / 4 % 8 :=
      testBits_eq_iff.mpr ⟨by rw [h2, hr2], by rw [h3, hr3], by rw [h4, hr4]⟩
    have hsame : pairBit (conflictRest q) = pairBit r := by rw [hpair, hrpair]
    rw [pairBit_eq, pairBit_eq, decide_eq_decide] at hsame
    unfold conflictNumber
    omega
  · unfold conflictNumber
    omega

/-- Bits 12 and 13 of the base flipped, and bit 17 as well when the flip would go downwards. -/
def rowHitPartner (paBase : UInt64) : Option UInt64 :=
  if paBase.toNat.testBit 13 = false then some (paBase ^^^ 0x3000)
  else if paBase.toNat.testBit 17 = false then some (paBase ^^^ 0x23000)
  else none

/-- The page of the next 256 KiB block which has the bank of the base: bits 15 and 18 are
flipped, bits 16 and 19 too if bit 18 of the base is set, bit 12 if bits 13 and 18 of the base
are equal, and bits 13 and 17 are clear. -/
def conflictPartner (paBase : UInt64) : UInt64 :=
  (((paBase >>> 18) + 1) <<< 18) +
    UInt64.ofNat (conflictRest (paBase.toNat / 4096)) * 4096

section
variable {paBase : UInt64} {q : ℕ}

theorem pageAt_number (hbase : paBase.toNat = 4096 * q) {r : ℕ} (hr : q ≤ r) :
    (pageAt paBase (r - q)).toNat = 4096 * r % 2 ^ 64 := by
  rw [pageAt_toNat hbase, Nat.add_sub_cancel' hr]

theorem flip_page (hbase : paBase.toNat = 4096 * q) {d : ℕ} {mask : UInt64}
    (hmask : mask.toNat = 4096 * d) (hle : q ≤ q ^^^ d) :
    pageAt paBase ((q ^^^ d) - q) = paBase ^^^ mask := by
  have hxor : 4096 * (q ^^^ d) = paBase.toNat ^^^ mask.toNat := by
    rw [hbase, hmask, Nat.mul_comm, Nat.mul_comm 4096 q, Nat.mul_comm 4096 d,
      show 4096 = 2 ^ 12 from rfl, ← Nat.shiftLeft_eq, ← Nat.shiftLeft_eq, ← Nat.shiftLeft_eq,
      Nat.shiftLeft_xor_distrib]
  apply UInt64.toNat_inj.mp
  rw [pageAt_number hbase hle, hxor, ← UInt64.toNat_xor, Nat.mod_eq_of_lt (UInt64.toNat_lt _)]

theorem rowHitPartner_eq (hbase : paBase.toNat = 4096 * q) :
    rowHitPartner paBase = (rowHitStep q).map (pageAt paBase) := by
  unfold rowHitPartner rowHitStep
  rw [testBit_base hbase (by decide : 13 < 64), testBit_base hbase (by decide : 17 < 64),
    decide_eq_true (by decide : 12 ≤ 13), decide_eq_true (by decide : 12 ≤ 17), Bool.true_and,
    Bool.true_and]
  split_ifs with h1 h5
  · have hle : q ≤ q ^^^ 3 := by
      rw [Nat.testBit_eq_decide_div_mod_eq, decide_eq_false_iff_not] at h1
      rw [xor_three]
      omega
    have hmask : (0x3000 : UInt64).toNat = 4096 * 3 := rfl
    rw [Option.map_some, flip_page hbase hmask hle]
  · have hle : q ≤ q ^^^ 0x23 := by
      rw [Nat.testBit_eq_decide_div_mod_eq, decide_eq_false_iff_not] at h1 h5
      rw [xor_thirtyFive (by omega)]
      omega
    have hmask : (0x23000 : UInt64).toNat = 4096 * 0x23 := rfl
    rw [Option.map_some, flip_page hbase hmask hle]
  · rfl

theorem lt_conflictNumber (q : ℕ) : q < conflictNumber q ∧ conflictNumber q - q < bufPages := by
  obtain ⟨hlt, -⟩ := conflictRest_bits q
  unfold conflictNumber bufPages
  omega

theorem conflictPartner_eq (hbase : paBase.toNat = 4096 * q) :
    conflictPartner paBase = pageAt paBase (conflictNumber q - q) := by
  have hpage : (4096 : UInt64).toNat = 4096 := rfl
  have hone : (1 : UInt64).toNat = 1 := rfl
  have hblock : (paBase >>> 18).toNat = q / 64 := by
    rw [UInt64.toNat_shiftRight, hbase]
    change (4096 * q) >>> 18 = q / 64
    rw [Nat.shiftRight_eq_div_pow]
    omega
  have hnext : (((paBase >>> 18) + 1) <<< 18).toNat = 4096 * (64 * (q / 64 + 1)) % 2 ^ 64 := by
    have hlt := paBase.toNat_lt
    rw [UInt64.toNat_shiftLeft, UInt64.toNat_add, hblock, hone]
    change ((q / 64 + 1) % 2 ^ 64) <<< 18 % 2 ^ 64 = _
    rw [Nat.shiftLeft_eq]
    omega
  have hnumber : paBase.toNat / 4096 = q := by
    rw [hbase, Nat.mul_div_cancel_left q (by decide)]
  obtain ⟨hlt, -⟩ := conflictRest_bits q
  apply UInt64.toNat_inj.mp
  rw [pageAt_number hbase (lt_conflictNumber q).1.le, conflictPartner, hnumber, UInt64.toNat_add,
    hnext, UInt64.toNat_mul, UInt64.toNat_ofNat', hpage]
  unfold conflictNumber
  omega

end

section
variable {host : McHost} {mc : McConfig} {paBase : UInt64} {q : ℕ}

theorem pageAt_ne_base (paBase : UInt64) {i : ℕ} (h1 : 1 ≤ i) (hi : i < bufPages) :
    pageAt paBase i ≠ paBase := by
  intro heq
  have hsub := pageAt_sub paBase i
  rw [heq, UInt64.sub_self] at hsub
  have hzero := congrArg UInt64.toNat hsub
  rw [offset_toNat hi, UInt64.toNat_zero] at hzero
  omega

theorem findRowHit_eq (h : cflSklConfig host = some mc) (hbase : paBase.toNat = 4096 * q) :
    findRowHit host paBase = (rowHitStep q).map fun i => (0, UInt64.ofNat i * 4096) := by
  have hwanted {i : ℕ} (h1 : 1 ≤ i) (hi : i < bufPages) :
      ((cflSklDecodePa (some mc) (pageAt paBase i)).bankGroup ==
          (cflSklDecodePa (some mc) paBase).bankGroup &&
        (cflSklDecodePa (some mc) (pageAt paBase i)).bank ==
          (cflSklDecodePa (some mc) paBase).bank &&
        (cflSklDecodePa (some mc) (pageAt paBase i)).row ==
          (cflSklDecodePa (some mc) paBase).row && pageAt paBase i != paBase) = true ↔
      (q + i) / 64 = q / 64 ∧ BankBits q (q + i) := by
    rw [Bool.and_eq_true, Bool.and_eq_true, Bool.and_eq_true, beq_iff_eq, beq_iff_eq, beq_iff_eq,
      bne_iff_ne, bankBits_iff mc hbase, sameRow_iff (valid_of_config h) hbase hi]
    exact ⟨fun hall => ⟨hall.1.2, hall.1.1⟩,
      fun hall => ⟨⟨hall.2, hall.1⟩, pageAt_ne_base paBase h1 hi⟩⟩
  unfold findRowHit
  rw [findPair_eq h]
  congr 1
  cases hstep : rowHitStep q with
  | none =>
      rw [List.find?_range'_eq_none]
      intro i h1 hi
      rw [Bool.not_eq_true', ← Bool.not_eq_true, hwanted h1 hi]
      exact rowHitStep_none hstep h1
  | some i =>
      obtain ⟨h1, hi, hmatch, -⟩ := rowHitStep_some hstep
      have hbuf : i < bufPages := hi.trans (by decide)
      rw [List.find?_range'_eq_some]
      refine ⟨(hwanted h1 hbuf).mpr hmatch, ?_, ?_⟩
      · rw [List.mem_range'_1]
        unfold bufPages at hbuf
        omega
      · intro j hj hji
        rw [Bool.not_eq_true', ← Bool.not_eq_true, hwanted hj (hji.trans hbuf)]
        exact rowHitStep_first hstep hj hji

theorem findBankConflict_eq (h : cflSklConfig host = some mc) (hbase : paBase.toNat = 4096 * q) :
    findBankConflict host paBase = some (0, UInt64.ofNat (conflictNumber q - q) * 4096) := by
  have hwanted {i : ℕ} (hi : i < bufPages) :
      ((cflSklDecodePa (some mc) (pageAt paBase i)).bankGroup ==
          (cflSklDecodePa (some mc) paBase).bankGroup &&
        (cflSklDecodePa (some mc) (pageAt paBase i)).bank ==
          (cflSklDecodePa (some mc) paBase).bank &&
        (cflSklDecodePa (some mc) (pageAt paBase i)).row !=
          (cflSklDecodePa (some mc) paBase).row) = true ↔
      BankBits q (q + i) ∧ (q + i) / 64 ≠ q / 64 := by
    rw [Bool.and_eq_true, Bool.and_eq_true, beq_iff_eq, beq_iff_eq, bne_iff_ne,
      bankBits_iff mc hbase, Ne, sameRow_iff (valid_of_config h) hbase hi]
  obtain ⟨hlt, hbuf⟩ := lt_conflictNumber q
  have hsum : q + (conflictNumber q - q) = conflictNumber q := Nat.add_sub_cancel' hlt.le
  have hfind : ((List.range' 1 1023).find? fun i =>
      (cflSklDecodePa (some mc) (pageAt paBase i)).bankGroup ==
          (cflSklDecodePa (some mc) paBase).bankGroup &&
        (cflSklDecodePa (some mc) (pageAt paBase i)).bank ==
          (cflSklDecodePa (some mc) paBase).bank &&
        (cflSklDecodePa (some mc) (pageAt paBase i)).row !=
          (cflSklDecodePa (some mc) paBase).row) = some (conflictNumber q - q) := by
    rw [List.find?_range'_eq_some]
    refine ⟨(hwanted hbuf).mpr ?_, ?_, ?_⟩
    · rw [hsum]
      refine ⟨conflictNumber_bankBits q, ?_⟩
      obtain ⟨hrest, -⟩ := conflictRest_bits q
      unfold conflictNumber
      omega
    · rw [List.mem_range'_1]
      unfold bufPages at hbuf
      omega
    · intro j hj hji
      rw [Bool.not_eq_true', ← Bool.not_eq_true, hwanted (hji.trans hbuf)]
      rintro ⟨hbits, hrow⟩
      have hfirst := conflictNumber_first (by omega) hrow hbits
      omega
  unfold findBankConflict
  rw [findPair_eq h, hfind]
  rfl

end

/-- The bits in which both addresses differ leave channel and rank alone. -/
structure SameDevice (mc : McConfig) (a b : UInt64) : Prop where
  channel : channelParity mc (a ^^^ b) = false
  rank : ∀ n, rankMode mc (cflSklDecodeChannel a mc) = .addressBit n →
    a.toNat.testBit n.toNat = b.toNat.testBit n.toNat

section
variable {host : McHost} {mc : McConfig} {paBase : UInt64} {q : ℕ}

theorem sameDevice_iff (mc : McConfig) (a b : UInt64) : SameDevice mc a b ↔
    (cflSklDecodePa (some mc) a).channel = (cflSklDecodePa (some mc) b).channel ∧
      (cflSklDecodePa (some mc) a).rank = (cflSklDecodePa (some mc) b).rank := by
  constructor
  · intro h
    have hch := (channel_eq_iff mc).mpr h.channel
    exact ⟨hch, (decodedRank_eq_iff hch).mpr h.rank⟩
  · rintro ⟨hch, hrank⟩
    exact ⟨(channel_eq_iff mc).mp hch, (decodedRank_eq_iff hch).mp hrank⟩

theorem base_add_step (paBase : UInt64) (i : ℕ) :
    paBase + UInt64.ofNat i * 4096 = pageAt paBase i := rfl

/-- A pair of this kind is in one bank exactly when it is in one channel and rank. -/
theorem pairOf_iff (rel : PaDecoded → PaDecoded → Prop) (h : cflSklConfig host = some mc)
    (hbase : paBase.toNat = 4096 * q) {i : ℕ} (hi : i < bufPages) (hbits : BankBits q (q + i))
    (hrel : rel (cflSklDecodePa (some mc) paBase) (cflSklDecodePa (some mc) (pageAt paBase i))) :
    PairOf host paBase (fun d e => SameBank d e ∧ rel d e) (0, UInt64.ofNat i * 4096) ↔
      SameDevice mc paBase (pageAt paBase i) := by
  obtain ⟨hgroup, hbank⟩ := (bankBits_iff mc hbase i).mpr hbits
  have hoffset := offset_toNat hi
  unfold PairOf
  rw [UInt64.add_zero, base_add_step, decode_of_config h, decode_of_config h, sameDevice_iff]
  unfold bufPages at hi
  constructor
  · rintro ⟨-, -, hsame, -⟩
    exact ⟨hsame.channel, hsame.rank⟩
  · rintro ⟨hch, hrank⟩
    exact ⟨(by decide : 0 + 4096 ≤ bufBytes), by rw [hoffset, bufBytes]; omega,
      ⟨hch, hrank, hgroup.symm, hbank.symm⟩, hrel⟩

theorem rowHit_iff (h : cflSklConfig host = some mc) (hbase : paBase.toNat = 4096 * q) :
    (∀ p, findRowHit host paBase = some p →
      PairOf host paBase (fun d e => SameBank d e ∧ d.row = e.row ∧ d.col ≠ e.col) p) ↔
    ∀ a, rowHitPartner paBase = some a → SameDevice mc paBase a := by
  rw [findRowHit_eq h hbase, rowHitPartner_eq hbase]
  cases hstep : rowHitStep q with
  | none => simp
  | some i =>
      obtain ⟨-, hi, ⟨hblock, hbits⟩, hodd⟩ := rowHitStep_some hstep
      have hbuf : i < bufPages := hi.trans (by decide)
      have hrow := ((sameRow_iff (valid_of_config h) hbase hbuf).mpr hblock).symm
      have hcol : (cflSklDecodePa (some mc) paBase).col ≠
          (cflSklDecodePa (some mc) (pageAt paBase i)).col := by
        intro heq
        have hbit := (col_eq_iff mc).mp heq 12 (by decide) (by decide)
        rw [testBit_base hbase (by decide), testBit_pageAt hbase i (by decide)] at hbit
        simp only [le_refl, decide_true, Bool.true_and, Nat.sub_self, Nat.testBit_zero,
          decide_eq_decide] at hbit
        omega
      simp only [Option.map_some, Option.some.injEq, forall_eq']
      exact pairOf_iff (fun d e => d.row = e.row ∧ d.col ≠ e.col) h hbase hbuf hbits ⟨hrow, hcol⟩

theorem conflict_iff (h : cflSklConfig host = some mc) (hbase : paBase.toNat = 4096 * q) :
    (∀ p, findBankConflict host paBase = some p →
      PairOf host paBase (fun d e => SameBank d e ∧ d.row ≠ e.row) p) ↔
    SameDevice mc paBase (conflictPartner paBase) := by
  obtain ⟨hlt, hbuf⟩ := lt_conflictNumber q
  have hsum : q + (conflictNumber q - q) = conflictNumber q := Nat.add_sub_cancel' hlt.le
  have hrow : (cflSklDecodePa (some mc) paBase).row ≠
      (cflSklDecodePa (some mc) (pageAt paBase (conflictNumber q - q))).row := by
    intro heq
    have hblock := (sameRow_iff (valid_of_config h) hbase hbuf).mp heq.symm
    obtain ⟨hrest, -⟩ := conflictRest_bits q
    rw [hsum] at hblock
    unfold conflictNumber at hblock
    omega
  rw [findBankConflict_eq h hbase, conflictPartner_eq hbase]
  simp only [Option.some.injEq, forall_eq']
  have hbits : BankBits q (q + (conflictNumber q - q)) := by
    rw [hsum]
    exact conflictNumber_bankBits q
  exact pairOf_iff (fun d e => d.row ≠ e.row) h hbase hbuf hbits hrow

end

/-- The self-test measures row hits and bank conflicts exactly when neither pair crosses
channels or ranks. -/
theorem measures_iff {host : McHost} {mc : McConfig} (h : cflSklConfig host = some mc)
    {paBase : UInt64} (hbase : 4096 ∣ paBase.toNat) : Measures host paBase ↔
      (∀ a, rowHitPartner paBase = some a → SameDevice mc paBase a) ∧
        SameDevice mc paBase (conflictPartner paBase) := by
  obtain ⟨q, hq⟩ := hbase
  rw [← rowHit_iff h hq, ← conflict_iff h hq]
  exact ⟨fun hm => ⟨hm.rowHit, hm.conflict⟩, fun hm => ⟨hm.1, hm.2⟩⟩

/-- Without hashing the channel is bit 6, in which page bases do not differ. -/
theorem measures_unhashed : Measures (dualChannelHost 0) 0x100000 := by
  have hmode : rankMode (readConfig (dualChannelHost 0).regs)
      (cflSklDecodeChannel 0x100000 (readConfig (dualChannelHost 0).regs)) = .single := by decide
  have hrank (b : UInt64) (n : UInt32) (hn : rankMode (readConfig (dualChannelHost 0).regs)
      (cflSklDecodeChannel 0x100000 (readConfig (dualChannelHost 0).regs)) = .addressBit n) :
      (0x100000 : UInt64).toNat.testBit n.toNat = b.toNat.testBit n.toNat := by
    rw [hmode] at hn
    cases hn
  have hconfig : cflSklConfig (dualChannelHost 0) =
      some (readConfig (dualChannelHost 0).regs) := by decide
  apply (measures_iff hconfig (by decide)).mpr
  constructor
  · intro a ha
    have hpartner : rowHitPartner 0x100000 = some 0x103000 := by decide
    rw [hpartner] at ha
    obtain rfl := Option.some.inj ha
    exact ⟨by decide +kernel, hrank _⟩
  · exact ⟨by decide +kernel, hrank _⟩

/-- Bit 12 selects the channel, and the pages of the row hit differ in it. -/
theorem row_hit_crosses_channels : ¬Measures (dualChannelHost 0x1001) 0x100000 := by
  intro h
  have hconfig : cflSklConfig (dualChannelHost 0x1001) =
      some (readConfig (dualChannelHost 0x1001).regs) := by decide
  have hsame := (rowHit_iff hconfig (show (0x100000 : UInt64).toNat = 4096 * 256 from rfl)).mp
    h.rowHit 0x103000 (by decide)
  exact absurd hsame.channel (by decide +kernel)

end BankFinder.SelftestPairs
