import BankFinder.PageDecode

/-!
# The fields of a decoded address

Each field which `cfl_skl_decode_pa` gives depends on a few address bits. Two addresses
agree in a field when they agree in these bits, or in the sums of these bits.
-/

namespace BankFinder.CellBits
open BitLoops CflSkl DecoderAgreement PageDecode

/-- What every configuration read from the registers has. -/
structure Valid (mc : McConfig) : Prop where
  shape : ConfigShape mc
  populated : mc.channelsPopulated > 0

theorem valid_of_config {host : McHost} {mc : McConfig} (h : cflSklConfig host = some mc) :
    Valid mc := by
  unfold cflSklConfig at h
  simp only at h
  split_ifs at h with _ _ _ hpop
  obtain rfl := Option.some.inj h
  exact ⟨readConfig_shape host.regs, hpop⟩

/-- The number of row bits. -/
def rowWidth (mc : McConfig) : ℕ := (cflSklRowBits (some mc)).toNat

section
variable {mc : McConfig}

theorem rowWidth_bounds (h : Valid mc) : 10 ≤ rowWidth mc ∧ rowWidth mc ≤ 18 := by
  obtain ⟨d, hd⟩ := firstDimm_exists h.shape h.populated
  obtain ⟨hp, gib, k, hshape⟩ := firstDimm_shape h.shape hd
  obtain ⟨hlow, hhigh⟩ := hshape.log2_rowsPerBank hp
  have hwidth : rowWidth mc = Nat.log2 d.rowsPerBank.toNat := by
    rw [rowWidth, cflSklRowBits_eq hd hshape hp, UInt32.toNat_ofNat']
    omega
  rw [hwidth]
  exact ⟨hlow, hhigh⟩

theorem row_toNat (h : Valid mc) (a : UInt64) :
    (cflSklDecodePa (some mc) a).row.toNat = a.toNat / 2 ^ 18 % 2 ^ rowWidth mc := by
  obtain ⟨hlow, hhigh⟩ := rowWidth_bounds h
  have hwidth : cflSklRowBits (some mc) > 0 ∧ cflSklRowBits (some mc) ≤ 20 := by
    constructor
    · rw [gt_iff_lt, UInt32.lt_iff_toNat_lt]
      change 0 < rowWidth mc
      omega
    · rw [UInt32.le_iff_toNat_le]
      change rowWidth mc ≤ 20
      omega
  have hpow : 2 ^ rowWidth mc ≤ 2 ^ 18 := Nat.pow_le_pow_right (by decide) hhigh
  have hone : ((1 : UInt64) <<< (cflSklRowBits (some mc)).toUInt64).toNat = 2 ^ rowWidth mc := by
    rw [UInt64.toNat_shiftLeft, UInt32.toNat_toUInt64]
    change 1 <<< (rowWidth mc % 64) % 2 ^ 64 = _
    rw [Nat.mod_eq_of_lt (show rowWidth mc < 64 by omega), Nat.one_shiftLeft,
      Nat.mod_eq_of_lt (by omega)]
  have hmask : (((1 : UInt64) <<< (cflSklRowBits (some mc)).toUInt64) - 1).toNat =
      2 ^ rowWidth mc - 1 := by
    have hpos : 0 < 2 ^ rowWidth mc := Nat.two_pow_pos _
    rw [UInt64.toNat_sub_of_le _ _ (by rw [UInt64.le_iff_toNat_le, hone]; exact hpos), hone]
    rfl
  have hlt : a.toNat / 2 ^ 18 % 2 ^ rowWidth mc < 2 ^ rowWidth mc := Nat.mod_lt _ (Nat.two_pow_pos _)
  simp only [cflSklDecodePa, cflSklDecodeBankRowCol]
  rw [if_pos hwidth, UInt64.toNat_toUInt32, UInt64.toNat_and, hmask,
    Nat.and_two_pow_sub_one_eq_mod, UInt64.toNat_shiftRight]
  change a.toNat >>> 18 % 2 ^ rowWidth mc % 2 ^ 32 = _
  rw [Nat.shiftRight_eq_div_pow, Nat.mod_eq_of_lt (by omega)]

theorem col_toNat (mc : McConfig) (a : UInt64) :
    (cflSklDecodePa (some mc) a).col.toNat = a.toNat / 2 ^ 6 % 2 ^ 10 := by
  simp only [cflSklDecodePa, cflSklDecodeBankRowCol]
  rw [UInt64.toNat_toUInt16, UInt64.toNat_and, UInt64.toNat_shiftRight]
  change (a.toNat >>> 6 &&& (2 ^ 10 - 1)) % 2 ^ 16 = _
  rw [Nat.and_two_pow_sub_one_eq_mod, Nat.shiftRight_eq_div_pow]
  omega

section
variable {a b : UInt64}

theorem row_eq_iff (h : Valid mc) :
    (cflSklDecodePa (some mc) a).row = (cflSklDecodePa (some mc) b).row ↔
      ∀ i, 18 ≤ i → i < 18 + rowWidth mc → a.toNat.testBit i = b.toNat.testBit i := by
  rw [← UInt32.toNat_inj, row_toNat h, row_toNat h]
  exact field_eq_iff

theorem col_eq_iff (mc : McConfig) :
    (cflSklDecodePa (some mc) a).col = (cflSklDecodePa (some mc) b).col ↔
      ∀ i, 6 ≤ i → i < 16 → a.toNat.testBit i = b.toNat.testBit i := by
  rw [← UInt16.toNat_inj, col_toNat, col_toNat]
  exact field_eq_iff

theorem bank_eq_iff (mc : McConfig) :
    (cflSklDecodePa (some mc) a).bank = (cflSklDecodePa (some mc) b).bank ↔
      (a.toNat.testBit 15 ^^ a.toNat.testBit 18) = (b.toNat.testBit 15 ^^ b.toNat.testBit 18) ∧
        (a.toNat.testBit 16 ^^ a.toNat.testBit 19) =
          (b.toNat.testBit 16 ^^ b.toNat.testBit 19) := by
  unfold cflSklDecodePa
  rw [decodeBankRowCol_bank, decodeBankRowCol_bank]
  exact packed_inj _ _ _ _

theorem bankGroup_eq_iff (mc : McConfig) :
    (cflSklDecodePa (some mc) a).bankGroup = (cflSklDecodePa (some mc) b).bankGroup ↔
      (a.toNat.testBit 7 ^^ a.toNat.testBit 14) = (b.toNat.testBit 7 ^^ b.toNat.testBit 14) ∧
        (a.toNat.testBit 8 ^^ a.toNat.testBit 9 ^^ a.toNat.testBit 12 ^^ a.toNat.testBit 13 ^^
          a.toNat.testBit 18 ^^ a.toNat.testBit 19) =
        (b.toNat.testBit 8 ^^ b.toNat.testBit 9 ^^ b.toNat.testBit 12 ^^ b.toNat.testBit 13 ^^
          b.toNat.testBit 18 ^^ b.toNat.testBit 19) := by
  unfold cflSklDecodePa
  rw [decodeBankRowCol_bankGroup, decodeBankRowCol_bankGroup]
  exact packed_inj _ _ _ _

theorem xor_ofBool_eq_iff (base : UInt8) (x y : Bool) :
    base ^^^ ofBool x = base ^^^ ofBool y ↔ x = y := by
  constructor
  · intro h
    have hxor := congrArg (base ^^^ ·) h
    simp only [← UInt8.xor_assoc, UInt8.xor_self, UInt8.zero_xor] at hxor
    revert hxor
    cases x <;> cases y <;> decide
  · intro h
    rw [h]

theorem channel_eq_iff (mc : McConfig) :
    cflSklDecodeChannel a mc = cflSklDecodeChannel b mc ↔ channelParity mc (a ^^^ b) = false := by
  rw [decodeChannel_eq_parity, decodeChannel_eq_parity, xor_ofBool_eq_iff, channelParity_xor]
  cases channelParity mc a <;> cases channelParity mc b <;> decide

theorem rank_eq_iff (mc : McConfig) (ch : UInt8) :
    (cflSklDecodeRank a ch mc).rank = (cflSklDecodeRank b ch mc).rank ↔
      ∀ n, rankMode mc ch = .addressBit n →
        a.toNat.testBit n.toNat = b.toNat.testBit n.toNat := by
  rw [decodeRank_eq_mode, decodeRank_eq_mode]
  cases rankMode mc ch with
  | addressBit n =>
      simp only [RankMode.addressBit.injEq, forall_eq']
      cases a.toNat.testBit n.toNat <;> cases b.toNat.testBit n.toNat <;> decide
  | _ => simp

theorem decodedRank_eq_iff (h : cflSklDecodeChannel a mc = cflSklDecodeChannel b mc) :
    (cflSklDecodePa (some mc) a).rank = (cflSklDecodePa (some mc) b).rank ↔
      ∀ n, rankMode mc (cflSklDecodeChannel a mc) = .addressBit n →
        a.toNat.testBit n.toNat = b.toNat.testBit n.toNat := by
  have hb : (cflSklDecodePa (some mc) b).rank =
      (cflSklDecodeRank b (cflSklDecodeChannel a mc) mc).rank := by
    rw [h]
    rfl
  rw [hb, ← rank_eq_iff mc (cflSklDecodeChannel a mc)]
  rfl

end

end

/-- Two channels with one 16 GiB DIMM each. -/
def dualChannelHost (channelHash : UInt32) : McHost where
  vendorInitial := 0x47
  family := 6
  model := 0xe
  extendedModel := 9
  mchbarLo := 0xfed10001
  mchbarLoRetry := 0xfed10001
  mchbarHi := 0
  mapped := true
  regs := ⟨0, 0, 0x410, 0x410, channelHash⟩

end BankFinder.CellBits
