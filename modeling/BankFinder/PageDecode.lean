import BankFinder.BootSession
import BankFinder.DecoderAgreement

/-!
# Decoding a page and an offset

The channel is a parity of address bits, so the channel of an address is the
channel of its page, flipped once for every set offset bit which takes part in the
parity. The rank is one address bit at most, and two of the bank bits depend on
offset bits. Decoding a page base instead of the address loses exactly these.
-/

namespace BankFinder.PageDecode
open AlignedWords BitLoops BootSession CflSkl

/-- The offset of an address in its page. -/
def pageOffset (a : UInt64) : UInt64 := a &&& 0xfff

theorem pageAlign_xor_pageOffset (a : UInt64) : pageAlign a ^^^ pageOffset a = a := by
  apply UInt64.toBitVec_inj.mp
  simp only [pageAlign, pageOffset, clear, UInt64.toBitVec_xor, UInt64.toBitVec_and,
    UInt64.toBitVec_not]
  ext i
  simp only [BitVec.getElem_xor, BitVec.getElem_and, BitVec.getElem_not]
  cases a.toBitVec[i] <;> cases (UInt64.toBitVec 0xfff)[i] <;> rfl

theorem pageOffset_toNat (a : UInt64) : (pageOffset a).toNat = a.toNat % 4096 := by
  rw [pageOffset, UInt64.toNat_and]
  exact Nat.and_two_pow_sub_one_eq_mod a.toNat 12

/-- Bit `n` of a word, as the decoders extract it. -/
theorem shift_and_one_toNat (a n : UInt64) (hn : n.toNat < 64) :
    ((a >>> n) &&& 1).toNat = (a.toNat.testBit n.toNat).toNat := by
  rw [UInt64.toNat_and, UInt64.toNat_shiftRight, Nat.mod_eq_of_lt hn]
  change a.toNat >>> n.toNat &&& 1 = _
  rw [Nat.and_one_is_mod, Nat.testBit_eq_decide_div_mod_eq, Nat.shiftRight_eq_div_pow]
  rcases Nat.mod_two_eq_zero_or_one (a.toNat / 2 ^ n.toNat) with h | h <;> simp [h]

theorem testBit_pageAlign (a : UInt64) (n : ℕ) :
    (pageAlign a).toNat.testBit n = (decide (12 ≤ n) && a.toNat.testBit n) := by
  rw [pageAlign_toNat, show 4096 = 2 ^ 12 from rfl, ← Nat.shiftRight_eq_div_pow,
    ← Nat.shiftLeft_eq, Nat.testBit_shiftLeft, Nat.testBit_shiftRight]
  by_cases h : 12 ≤ n
  · rw [Nat.add_sub_cancel' h]
  · simp [h]

def flag (b : Bool) : UInt32 := if b then 1 else 0

theorem flag_xor (a b : Bool) : flag a ^^^ flag b = flag (a ^^ b) := by
  cases a <;> cases b <;> rfl

theorem bit_eq_flag (a n : UInt64) (hn : n.toNat < 64) :
    bit a n = flag (a.toNat.testBit n.toNat) := by
  apply UInt32.toNat_inj.mp
  rw [bit, UInt64.toNat_toUInt32, shift_and_one_toNat a n hn]
  cases a.toNat.testBit n.toNat <;> rfl

/-- Two flags packed into one number can be read back. -/
theorem packed_inj (x y x' y' : Bool) :
    (flag x ||| (flag y <<< 1)).toUInt8 = (flag x' ||| (flag y' <<< 1)).toUInt8 ↔
      x = x' ∧ y = y' := by
  cases x <;> cases y <;> cases x' <;> cases y' <;> decide

section
variable (mc : McConfig)

/-- The address bits, counted from bit 6, whose parity selects the channel. -/
def channelMask : UInt64 :=
  if mc.channelsPopulated = 1 then 0
  else if mc.chanHash &&& 0x1 = 0 then 1
  else ((mc.chanHash >>> 6) &&& 0x3FFF).toUInt64

/-- The channel of address 0. -/
def channelBase : UInt8 :=
  if mc.channelsPopulated = 1 then if mc.channel0.populated then 0 else 1 else 0

/-- Whether an address flips the channel of address 0. -/
def channelParity (a : UInt64) : Bool := oddBits 64 ((a >>> 6) &&& channelMask mc).toNat

theorem decodeChannel_eq_parity (a : UInt64) :
    cflSklDecodeChannel a mc = channelBase mc ^^^ ofBool (channelParity mc a) := by
  have hsplit : (a >>> 6 &&& 1).toUInt8 = ofBool (oddBits 64 (a >>> 6 &&& 1).toNat) := by
    have hlow := lowBit_eq (a >>> 6 &&& 1)
    rw [UInt64.and_assoc, UInt64.and_self] at hlow
    have hrest : (a >>> 6 &&& 1).toNat / 2 = 0 := by
      rw [UInt64.toNat_and]
      have : (a >>> 6).toNat &&& (1 : UInt64).toNat ≤ 1 := Nat.and_le_right
      omega
    rw [hlow]
    unfold oddBits
    rw [hrest, oddBits_zero, Bool.xor_false]
  unfold cflSklDecodeChannel channelBase channelParity channelMask
  by_cases hsingle : mc.channelsPopulated = 1
  · simp only [if_pos hsingle, UInt64.and_zero, UInt64.toNat_zero, oddBits_zero]
    exact (UInt8.xor_zero).symm
  · simp only [if_neg hsingle, UInt8.zero_xor]
    split_ifs with hhash
    · exact hsplit
    · exact parityLoop_start _

theorem channelParity_xor (a b : UInt64) :
    channelParity mc (a ^^^ b) = (channelParity mc a ^^ channelParity mc b) := by
  unfold channelParity
  rw [UInt64.shiftRight_xor, ← oddBits_xor]
  simp only [UInt64.toNat_and, UInt64.toNat_xor, Nat.and_xor_distrib_right]

/-- The channel of an address: that of its page, flipped by the parity of its offset. -/
theorem decodeChannel_split (a : UInt64) :
    cflSklDecodeChannel a mc =
      cflSklDecodeChannel (pageAlign a) mc ^^^ ofBool (channelParity mc (pageOffset a)) := by
  have hxor := channelParity_xor mc (pageAlign a) (pageOffset a)
  rw [pageAlign_xor_pageOffset] at hxor
  rw [decodeChannel_eq_parity, decodeChannel_eq_parity, hxor, ofBool_xor, UInt8.xor_assoc]

theorem decodeChannel_pageAlign_iff (a : UInt64) :
    cflSklDecodeChannel (pageAlign a) mc = cflSklDecodeChannel a mc ↔
      channelParity mc (pageOffset a) = false := by
  rw [decodeChannel_split mc a]
  cases channelParity mc (pageOffset a)
  · simp [ofBool]
  · have hne : cflSklDecodeChannel (pageAlign a) mc ≠
        cflSklDecodeChannel (pageAlign a) mc ^^^ 1 := by
      intro h
      have h' := congrArg (cflSklDecodeChannel (pageAlign a) mc ^^^ ·) h
      simp only [UInt8.xor_self, ← UInt8.xor_assoc, UInt8.zero_xor] at h'
      exact absurd h' (by decide)
    simp [ofBool, hne]

/-- How the registers of a channel determine the rank. -/
inductive RankMode where
  | single
  | unknown
  | addressBit (n : UInt32)
  deriving DecidableEq, Repr

def rankMode (ch : UInt8) : RankMode :=
  if channelMaxRanks (mc.channel ch) ≤ 1 then .single
  else
    let intra := if ch = 0 then mc.madIntraCh0 else mc.madIntraCh1
    if intra &&& ((1 : UInt32) <<< 8) = 0 then .unknown
    else
      let rankBit := intra &&& 0x1F
      if rankBit < 6 ∨ rankBit > 40 then .unknown else .addressBit rankBit

theorem rankBit_bounds {ch : UInt8} {n : UInt32} (h : rankMode mc ch = .addressBit n) :
    6 ≤ n.toNat ∧ n.toNat < 32 := by
  have hmask (intra : UInt32) : (intra &&& 0x1F).toNat < 32 := by
    rw [UInt32.toNat_and]
    exact Nat.lt_of_le_of_lt Nat.and_le_right (by decide)
  unfold rankMode at h
  generalize (if ch = 0 then mc.madIntraCh0 else mc.madIntraCh1) = intra at h
  simp only at h
  split_ifs at h with hsingle hoff hrange
  injection h with h
  rw [not_or, UInt32.not_lt, UInt32.le_iff_toNat_le] at hrange
  rw [← h]
  exact ⟨hrange.1, hmask intra⟩

theorem decodeRank_eq_mode (a : UInt64) (ch : UInt8) :
    cflSklDecodeRank a ch mc =
      match rankMode mc ch with
      | .single => ⟨0, true, false⟩
      | .unknown => ⟨0, false, false⟩
      | .addressBit n => ⟨ofBool (a.toNat.testBit n.toNat), true, true⟩ := by
  have hbit (n : UInt32) (hn : n.toNat < 32) :
      ((a >>> n.toUInt64) &&& 0x1).toUInt8 = ofBool (a.toNat.testBit n.toNat) := by
    have hn' : n.toUInt64.toNat = n.toNat := UInt32.toNat_toUInt64 n
    apply UInt8.toNat_inj.mp
    rw [UInt64.toNat_toUInt8, shift_and_one_toNat a _ (by omega), hn']
    cases a.toNat.testBit n.toNat <;> rfl
  cases hmode : rankMode mc ch with
  | addressBit n =>
      have hn := (rankBit_bounds mc hmode).2
      unfold rankMode at hmode
      unfold cflSklDecodeRank
      generalize (if ch = 0 then mc.madIntraCh0 else mc.madIntraCh1) = intra at hmode ⊢
      simp only at hmode ⊢
      split_ifs at hmode ⊢
      injection hmode with hmode
      rw [hmode, hbit n hn]
  | _ =>
      unfold rankMode at hmode
      unfold cflSklDecodeRank
      generalize (if ch = 0 then mc.madIntraCh0 else mc.madIntraCh1) = intra at hmode ⊢
      simp only at hmode ⊢
      split_ifs at hmode ⊢
      all_goals rfl

end

section
variable (a : UInt64) (d : PaDecoded) (rb : UInt32)

theorem decodeBankRowCol_bankGroup :
    (cflSklDecodeBankRowCol a d rb).bankGroup =
      (flag (a.toNat.testBit 7 ^^ a.toNat.testBit 14) |||
        (flag (a.toNat.testBit 8 ^^ a.toNat.testBit 9 ^^ a.toNat.testBit 12 ^^
          a.toNat.testBit 13 ^^ a.toNat.testBit 18 ^^ a.toNat.testBit 19) <<< 1)).toUInt8 := by
  have hbit (n : UInt64) (hn : n.toNat < 64) := bit_eq_flag a n hn
  simp only [cflSklDecodeBankRowCol, hbit 7 (by decide), hbit 8 (by decide), hbit 9 (by decide),
    hbit 12 (by decide), hbit 13 (by decide), hbit 14 (by decide), hbit 18 (by decide),
    hbit 19 (by decide), flag_xor]
  rfl

theorem decodeBankRowCol_bank :
    (cflSklDecodeBankRowCol a d rb).bank =
      (flag (a.toNat.testBit 15 ^^ a.toNat.testBit 18) |||
        (flag (a.toNat.testBit 16 ^^ a.toNat.testBit 19) <<< 1)).toUInt8 := by
  have hbit (n : UInt64) (hn : n.toNat < 64) := bit_eq_flag a n hn
  simp only [cflSklDecodeBankRowCol, hbit 15 (by decide), hbit 16 (by decide),
    hbit 18 (by decide), hbit 19 (by decide), flag_xor]
  rfl

theorem bank_pageAlign (d' : PaDecoded) :
    (cflSklDecodeBankRowCol (pageAlign a) d' rb).bank = (cflSklDecodeBankRowCol a d rb).bank := by
  rw [decodeBankRowCol_bank, decodeBankRowCol_bank]
  simp [testBit_pageAlign]

theorem row_pageAlign (d' : PaDecoded) (hrow : d'.row = d.row) :
    (cflSklDecodeBankRowCol (pageAlign a) d' rb).row = (cflSklDecodeBankRowCol a d rb).row := by
  have hshift : pageAlign a >>> 18 = a >>> 18 := by
    apply UInt64.toNat_inj.mp
    rw [UInt64.toNat_shiftRight, UInt64.toNat_shiftRight, Nat.shiftRight_eq_div_pow,
      Nat.shiftRight_eq_div_pow, pageAlign_toNat]
    change a.toNat / 4096 * 4096 / 2 ^ 18 = a.toNat / 2 ^ 18
    omega
  simp only [cflSklDecodeBankRowCol, hshift, hrow]

theorem bankGroup_pageAlign_iff (d' : PaDecoded) :
    (cflSklDecodeBankRowCol (pageAlign a) d' rb).bankGroup =
        (cflSklDecodeBankRowCol a d rb).bankGroup ↔
      a.toNat.testBit 7 = false ∧ a.toNat.testBit 8 = a.toNat.testBit 9 := by
  rw [decodeBankRowCol_bankGroup, decodeBankRowCol_bankGroup, packed_inj]
  simp only [testBit_pageAlign]
  generalize a.toNat.testBit 7 = t7
  generalize a.toNat.testBit 8 = t8
  generalize a.toNat.testBit 9 = t9
  generalize (a.toNat.testBit 12) = t12
  generalize (a.toNat.testBit 13) = t13
  generalize (a.toNat.testBit 14) = t14
  generalize (a.toNat.testBit 18) = t18
  generalize (a.toNat.testBit 19) = t19
  cases t7 <;> cases t8 <;> cases t9 <;> simp

end

/-- The offset bits of `a` leave channel, rank and bank group as its page base has them. -/
structure PageFaithful (mc : McConfig) (a : UInt64) : Prop where
  channel : channelParity mc (pageOffset a) = false
  rank : ∀ n, rankMode mc (cflSklDecodeChannel a mc) = .addressBit n → n.toNat < 12 →
    a.toNat.testBit n.toNat = false
  bit7 : a.toNat.testBit 7 = false
  bits89 : a.toNat.testBit 8 = a.toNat.testBit 9

theorem decodeRank_pageAlign_iff (mc : McConfig) (a : UInt64) (ch : UInt8) :
    (cflSklDecodeRank (pageAlign a) ch mc).rank = (cflSklDecodeRank a ch mc).rank ↔
      ∀ n, rankMode mc ch = .addressBit n → n.toNat < 12 → a.toNat.testBit n.toNat = false := by
  rw [decodeRank_eq_mode, decodeRank_eq_mode]
  cases rankMode mc ch with
  | addressBit n =>
      simp only [testBit_pageAlign, RankMode.addressBit.injEq, forall_eq']
      by_cases hn : 12 ≤ n.toNat
      · simp [hn, Nat.not_lt.mpr hn]
      · simp only [hn, decide_false, Bool.false_and, Nat.lt_of_not_le hn, forall_const]
        cases a.toNat.testBit n.toNat <;> decide
  | _ => simp

/-- The validity of the rank depends on the channel only. -/
theorem decodeRank_valid_eq (mc : McConfig) (a b : UInt64) (ch : UInt8) :
    (cflSklDecodeRank a ch mc).valid = (cflSklDecodeRank b ch mc).valid := by
  rw [decodeRank_eq_mode, decodeRank_eq_mode]
  cases rankMode mc ch <;> rfl

/-- The 64-byte block of an address within its page: offset bits 6 to 11. -/
def block (a : UInt64) : ℕ := a.toNat % 4096 / 64

theorem block_lt (a : UInt64) : block a < 2 ^ 6 := by
  unfold block
  omega

theorem testBit_block (a : UInt64) {n : ℕ} (h₆ : 6 ≤ n) (h₁₂ : n < 12) :
    a.toNat.testBit n = (block a).testBit (n - 6) := by
  unfold block
  rw [show 64 = 2 ^ 6 from rfl, ← Nat.shiftRight_eq_div_pow, Nat.testBit_shiftRight,
    Nat.add_sub_cancel' h₆, show 4096 = 2 ^ 12 from rfl, Nat.testBit_mod_two_pow]
  simp [h₁₂]

theorem exists_address {p : UInt64} (hp : 4096 ∣ p.toNat) {x : ℕ} (hx : x < 2 ^ 6) :
    ∃ a, pageAlign a = p ∧ block a = x := by
  have hlt := p.toNat_lt
  have ha : (UInt64.ofNat (p.toNat + 64 * x)).toNat = p.toNat + 64 * x := by
    rw [UInt64.toNat_ofNat']
    omega
  refine ⟨UInt64.ofNat (p.toNat + 64 * x), ?_, ?_⟩
  · apply UInt64.toNat_inj.mp
    rw [pageAlign_toNat, ha]
    omega
  · rw [block, ha]
    omega

section
variable (mc : McConfig)

/-- The bits of the channel mask which lie in the offset of a page. -/
def hashBits : ℕ := (channelMask mc).toNat % 64

theorem channelParity_pageOffset (a : UInt64) :
    channelParity mc (pageOffset a) = oddBits 64 (block a &&& hashBits mc) := by
  have hshift : (pageOffset a >>> 6).toNat = block a := by
    rw [UInt64.toNat_shiftRight, pageOffset_toNat, block]
    exact Nat.shiftRight_eq_div_pow _ 6
  have hself : block a &&& (2 ^ 6 - 1) = block a :=
    Nat.and_two_pow_sub_one_of_lt_two_pow (block_lt a)
  unfold channelParity hashBits
  rw [UInt64.toNat_and, hshift, show 64 = 2 ^ 6 from rfl,
    ← Nat.and_two_pow_sub_one_eq_mod (channelMask mc).toNat 6, Nat.and_comm _ (2 ^ 6 - 1),
    ← Nat.and_assoc, hself]

theorem decodeChannel_block {p a : UInt64} (h : pageAlign a = p) :
    cflSklDecodeChannel a mc =
      cflSklDecodeChannel p mc ^^^ ofBool (oddBits 64 (block a &&& hashBits mc)) := by
  rw [decodeChannel_split, h, channelParity_pageOffset]

/-- Some address of the page lies on channel `k`. -/
def ChannelReaches (p : UInt64) (k : UInt8) : Prop :=
  k = cflSklDecodeChannel p mc ∨ hashBits mc ≠ 0 ∧ k = cflSklDecodeChannel p mc ^^^ 1

theorem channelReaches_of_address {p a : UInt64} (h : pageAlign a = p) :
    ChannelReaches mc p (cflSklDecodeChannel a mc) := by
  rw [decodeChannel_block mc h]
  cases hodd : oddBits 64 (block a &&& hashBits mc) with
  | false => exact Or.inl UInt8.xor_zero
  | true =>
      refine Or.inr ⟨?_, rfl⟩
      intro hzero
      rw [hzero, Nat.and_zero, oddBits_zero] at hodd
      exact Bool.false_ne_true hodd

theorem exists_parity_of_reaches {p : UInt64} {k : UInt8} (h : ChannelReaches mc p k) :
    ∃ b, k = cflSklDecodeChannel p mc ^^^ ofBool b ∧ (b = true → hashBits mc ≠ 0) := by
  rcases h with h | ⟨hne, h⟩
  · exact ⟨false, h.trans UInt8.xor_zero.symm, fun hb => absurd hb Bool.false_ne_true⟩
  · exact ⟨true, h, fun _ => hne⟩

theorem address_of_channelReaches {p : UInt64} (hp : 4096 ∣ p.toNat) {k : UInt8}
    (h : ChannelReaches mc p k) : ∃ a, pageAlign a = p ∧ cflSklDecodeChannel a mc = k := by
  obtain ⟨b, hk, hb⟩ := exists_parity_of_reaches mc h
  obtain ⟨x, hx, hodd⟩ : ∃ x < 2 ^ 6, oddBits 64 (x &&& hashBits mc) = b := by
    by_cases hne : hashBits mc = 0
    · refine ⟨0, by decide, ?_⟩
      cases b with
      | false => simp
      | true => exact absurd hne (hb rfl)
    · exact exists_parity (by decide) (Nat.mod_lt _ (by decide)) hne b
  obtain ⟨a, ha, hblock⟩ := exists_address hp hx
  refine ⟨a, ha, ?_⟩
  rw [decodeChannel_block mc ha, hblock, hodd, hk]

/-- Some address of the page lies on channel `k` and has offset bit `n` equal to `v`. -/
def OffsetReaches (p : UInt64) (k : UInt8) (n : ℕ) (v : Bool) : Prop :=
  if hashBits mc = 2 ^ (n - 6) then k = cflSklDecodeChannel p mc ^^^ ofBool v
  else ChannelReaches mc p k

theorem offsetReaches_iff {p : UInt64} (hp : 4096 ∣ p.toNat) {k : UInt8} {n : ℕ} (h₆ : 6 ≤ n)
    (h₁₂ : n < 12) (v : Bool) : OffsetReaches mc p k n v ↔
      ∃ a, pageAlign a = p ∧ cflSklDecodeChannel a mc = k ∧ a.toNat.testBit n = v := by
  unfold OffsetReaches
  by_cases hbit : hashBits mc = 2 ^ (n - 6)
  · rw [if_pos hbit]
    have hodd (a : UInt64) : oddBits 64 (block a &&& hashBits mc) = a.toNat.testBit n := by
      rw [hbit, oddBits_and_two_pow (by omega), testBit_block a h₆ h₁₂]
    constructor
    · intro hk
      obtain ⟨x, hx, hv⟩ := exists_testBit (show n - 6 < 6 by omega) v
      obtain ⟨a, ha, hblock⟩ := exists_address hp hx
      have htest : a.toNat.testBit n = v := by rw [testBit_block a h₆ h₁₂, hblock, hv]
      refine ⟨a, ha, ?_, htest⟩
      rw [decodeChannel_block mc ha, hodd, htest, hk]
    · intro h
      obtain ⟨a, ha, hk, hv⟩ := h
      rw [← hk, decodeChannel_block mc ha, hodd, hv]
  · rw [if_neg hbit]
    constructor
    · intro hk
      by_cases hzero : hashBits mc = 0
      · obtain ⟨x, hx, hv⟩ := exists_testBit (show n - 6 < 6 by omega) v
        obtain ⟨a, ha, hblock⟩ := exists_address hp hx
        refine ⟨a, ha, ?_, by rw [testBit_block a h₆ h₁₂, hblock, hv]⟩
        rcases hk with hk | ⟨hne, -⟩
        · rw [decodeChannel_block mc ha, hzero, Nat.and_zero, oddBits_zero, hk]
          exact UInt8.xor_zero
        · exact absurd hzero hne
      · obtain ⟨b, hk', -⟩ := exists_parity_of_reaches mc hk
        have hmask : hashBits mc < 2 ^ 6 := Nat.mod_lt _ (by decide)
        obtain ⟨x, hx, hodd, hv⟩ := exists_parity_testBit (n := 64) (by decide) hmask
          (show n - 6 < 6 by omega) hzero hbit b v
        obtain ⟨a, ha, hblock⟩ := exists_address hp hx
        refine ⟨a, ha, ?_, by rw [testBit_block a h₆ h₁₂, hblock, hv]⟩
        rw [decodeChannel_block mc ha, hblock, hodd, hk']
    · intro h
      obtain ⟨a, ha, hk, -⟩ := h
      rw [← hk]
      exact channelReaches_of_address mc ha

end

end BankFinder.PageDecode
