import BankFinder.CellBits

/-!
# Address bits which the decoder loses

A cell is known by its channel, rank, bank group, bank, row and column. Two blocks of 64
bytes share a cell when they differ in no address bit from which these are made. Bit 17 is
in no field of its own, and the row ends at a bit which depends on the first DIMM only.
-/

namespace BankFinder.LostBits
open BitLoops CflSkl DecoderAgreement PageDecode CellBits

structure Cell where
  channel : UInt8
  rank : UInt8
  bankGroup : UInt8
  bank : UInt8
  row : UInt32
  col : UInt16
  deriving DecidableEq, Repr

def cellOf (d : PaDecoded) : Cell := ⟨d.channel, d.rank, d.bankGroup, d.bank, d.row, d.col⟩

/-- The address of a 64-byte block of installed memory. -/
structure BlockBase (mc : McConfig) (a : UInt64) : Prop where
  aligned : 64 ∣ a.toNat
  installed : a < cflSklTotalMemory (some mc)

/-- The rank of every block is known. -/
def RanksKnown (mc : McConfig) : Prop :=
  ∀ a, BlockBase mc a → (cflSklDecodePa (some mc) a).rankValid = true

/-- Different blocks have different cells. -/
def LosesNoBit (mc : McConfig) : Prop :=
  ∀ a b, BlockBase mc a → BlockBase mc b →
    cellOf (cflSklDecodePa (some mc) a) = cellOf (cflSklDecodePa (some mc) b) → a = b

/-- The channels to which the hash maps addresses. -/
def channelsInUse (mc : McConfig) : List UInt8 :=
  if channelMask mc = 0 then [channelBase mc] else [0, 1]

def totalBytes (mc : McConfig) : ℕ := (cflSklTotalMemory (some mc)).toNat

/-- Bit `i` of the address is the rank bit of the channel. -/
def IsRankBit (mc : McConfig) (ch : UInt8) (i : ℕ) : Prop :=
  ∃ n, rankMode mc ch = .addressBit n ∧ n.toNat = i

/-- Bit 17 takes part in the channel or selects the rank, and no bit of an installed address
lies behind the row, or only the rank bit does. -/
structure KeepsBits (mc : McConfig) (ch : UInt8) : Prop where
  bit17 : (channelMask mc).toNat.testBit 11 = true ∨ IsRankBit mc ch 17
  top : totalBytes mc ≤ 2 ^ (18 + rowWidth mc) ∨
    totalBytes mc ≤ 2 ^ (19 + rowWidth mc) ∧ IsRankBit mc ch (18 + rowWidth mc)

section
variable {mc : McConfig}

theorem addDimm_toNat {d : McDimm} {gib k : ℕ} (h : DimmShape d gib k) {total : UInt64} {g : ℕ}
    (htotal : total.toNat = g * 2 ^ 30) (hg : g < 256) :
    (if !d.populated then total else total + d.sizeMb.toUInt64 * 1024 * 1024).toNat =
      (g + gib) * 2 ^ 30 := by
  have hgib := h.gib_lt
  cases hp : d.populated with
  | false =>
      have hzero : gib = 0 := by
        by_contra hne
        rw [h.populated_iff.mpr hne] at hp
        exact Bool.false_ne_true hp.symm
      rw [hzero, Nat.add_zero, ← htotal]
      rfl
  | true =>
      rw [if_neg (by decide), UInt64.toNat_add, htotal, h.bytes_toNat]
      omega

theorem addChannel_toNat {ch : McChannel} (h : ChannelShape ch) {total : UInt64} {g : ℕ}
    (htotal : total.toNat = g * 2 ^ 30) (hg : g < 128) :
    ∃ more < 127, (if !ch.populated then total else ch.dimms.foldl (fun total d =>
        if !d.populated then total else total + d.sizeMb.toUInt64 * 1024 * 1024) total).toNat =
      (g + more) * 2 ^ 30 ∧ (ch.populated = true → 0 < more) := by
  obtain ⟨gib0, k0, h0⟩ := h.dimm0
  obtain ⟨gib1, k1, h1⟩ := h.dimm1
  have hlt0 := h0.gib_lt
  have hlt1 := h1.gib_lt
  cases hp : ch.populated with
  | false => exact ⟨0, by decide, by rw [Nat.add_zero, ← htotal]; rfl, by simp⟩
  | true =>
      refine ⟨gib0 + gib1, by omega, ?_, fun _ => ?_⟩
      · have hfirst := addDimm_toNat h0 htotal (by omega)
        have hsecond := addDimm_toNat h1 hfirst (by omega)
        rw [if_neg (by decide), ← Nat.add_assoc]
        exact hsecond
      · rw [h.populated, Bool.or_eq_true, h0.populated_iff, h1.populated_iff] at hp
        omega

/-- Installed memory is a positive number of GiB. -/
theorem totalBytes_eq (h : Valid mc) : ∃ g, totalBytes mc = g * 2 ^ 30 ∧ 0 < g ∧ g < 256 := by
  obtain ⟨g0, hlt0, hsum0, hpos0⟩ := addChannel_toNat h.shape.channel0
    (show (0 : UInt64).toNat = 0 * 2 ^ 30 from rfl) (by decide)
  obtain ⟨g1, hlt1, hsum1, hpos1⟩ := addChannel_toNat h.shape.channel1 hsum0 (by omega)
  refine ⟨0 + g0 + g1, hsum1, ?_, by omega⟩
  rcases h.shape.populated.mp h.populated with hp | hp
  · have := hpos0 hp
    omega
  · have := hpos1 hp
    omega

theorem channelMask_lt (mc : McConfig) : (channelMask mc).toNat < 2 ^ 14 := by
  unfold channelMask
  split_ifs
  · decide
  · decide
  · rw [UInt32.toNat_toUInt64, UInt32.toNat_and]
    exact Nat.lt_of_le_of_lt Nat.and_le_right (by decide)

theorem cell_eq_iff (h : Valid mc) {a b : UInt64} :
    cellOf (cflSklDecodePa (some mc) a) = cellOf (cflSklDecodePa (some mc) b) ↔
      channelParity mc (a ^^^ b) = false ∧
      (∀ n, rankMode mc (cflSklDecodeChannel a mc) = .addressBit n →
        a.toNat.testBit n.toNat = b.toNat.testBit n.toNat) ∧
      ∀ i, 6 ≤ i → i < 18 + rowWidth mc → i ≠ 17 → a.toNat.testBit i = b.toNat.testBit i := by
  obtain ⟨hlow, -⟩ := rowWidth_bounds h
  unfold cellOf
  rw [Cell.mk.injEq, bankGroup_eq_iff, bank_eq_iff, row_eq_iff h, col_eq_iff]
  constructor
  · rintro ⟨hch, hrk, -, ⟨-, hbank1⟩, hrow, hcol⟩
    refine ⟨(channel_eq_iff mc).mp hch, (decodedRank_eq_iff hch).mp hrk, ?_⟩
    intro i h6 hi h17
    by_cases hlo : i < 16
    · exact hcol i h6 hlo
    by_cases hhi : 18 ≤ i
    · exact hrow i hhi hi
    obtain rfl : i = 16 := by omega
    rw [hrow 19 (by decide) (by omega)] at hbank1
    exact (Bool.xor_left_inj).mp hbank1
  · rintro ⟨hpar, hrk, hbits⟩
    have hch := (channel_eq_iff mc).mpr hpar
    have hbit (i : ℕ) (h6 : 6 ≤ i) (hi : i < 20) (h17 : i ≠ 17) :=
      hbits i h6 (by omega) h17
    refine ⟨hch, (decodedRank_eq_iff hch).mpr hrk, ?_, ?_, ?_, ?_⟩
    · rw [hbit 7 (by decide) (by decide) (by decide), hbit 8 (by decide) (by decide) (by decide),
        hbit 9 (by decide) (by decide) (by decide), hbit 12 (by decide) (by decide) (by decide),
        hbit 13 (by decide) (by decide) (by decide), hbit 14 (by decide) (by decide) (by decide),
        hbit 18 (by decide) (by decide) (by decide), hbit 19 (by decide) (by decide) (by decide)]
      exact ⟨rfl, rfl⟩
    · rw [hbit 15 (by decide) (by decide) (by decide), hbit 16 (by decide) (by decide) (by decide),
        hbit 18 (by decide) (by decide) (by decide), hbit 19 (by decide) (by decide) (by decide)]
      exact ⟨rfl, rfl⟩
    · exact fun i hlo hi => hbits i (by omega) hi (by omega)
    · exact fun i hlo hi => hbits i hlo (by omega) (by omega)

/-- Of the bits which the hash may read, only bit 17 is set. -/
theorem channelParity_bit17 (mc : McConfig) {x : UInt64}
    (h : ∀ i, 6 ≤ i → i < 20 → i ≠ 17 → x.toNat.testBit i = false) :
    channelParity mc x = (x.toNat.testBit 17 && (channelMask mc).toNat.testBit 11) := by
  have hbit (i : ℕ) : ((x >>> 6) &&& channelMask mc).toNat.testBit i =
      (x.toNat.testBit (6 + i) && (channelMask mc).toNat.testBit i) := by
    rw [UInt64.toNat_and, Nat.testBit_and, UInt64.toNat_shiftRight]
    change ((x.toNat >>> 6).testBit i && _) = _
    rw [Nat.testBit_shiftRight]
  have hsingle : ((x >>> 6) &&& channelMask mc).toNat =
      ((x >>> 6) &&& channelMask mc).toNat &&& 2 ^ 11 := by
    apply Nat.eq_of_testBit_eq
    intro i
    rw [Nat.testBit_and, Nat.testBit_two_pow]
    by_cases h11 : 11 = i
    · rw [decide_eq_true h11, Bool.and_true]
    rw [decide_eq_false h11, Bool.and_false, hbit]
    by_cases hi : i < 14
    · rw [h (6 + i) (by omega) (by omega) (by omega), Bool.false_and]
    · have hmask : (channelMask mc).toNat.testBit i = false :=
        Nat.testBit_lt_two_pow ((channelMask_lt mc).trans_le
          (Nat.pow_le_pow_right (by decide) (Nat.le_of_not_lt hi)))
      rw [hmask, Bool.and_false]
  unfold channelParity
  rw [hsingle, oddBits_and_two_pow (by decide), hbit]

theorem channelBase_of_mask (h : channelMask mc ≠ 0) : channelBase mc = 0 := by
  unfold channelMask at h
  unfold channelBase
  split_ifs at h ⊢
  all_goals first | rfl | exact absurd rfl h

theorem channel_mem_inUse (mc : McConfig) (a : UInt64) :
    cflSklDecodeChannel a mc ∈ channelsInUse mc := by
  rw [decodeChannel_eq_parity]
  unfold channelsInUse
  by_cases hmask : channelMask mc = 0
  · have hpar : channelParity mc a = false := by
      rw [channelParity, hmask, UInt64.and_zero, UInt64.toNat_zero, oddBits_zero]
    rw [if_pos hmask, hpar]
    exact List.mem_singleton.mpr UInt8.xor_zero
  · rw [if_neg hmask, channelBase_of_mask hmask, UInt8.zero_xor]
    cases channelParity mc a <;> decide

/-- Every channel in use holds a block in the first MiB. -/
theorem block_of_inUse {ch : UInt8} (h : ch ∈ channelsInUse mc) :
    ∃ a : UInt64, 64 ∣ a.toNat ∧ a.toNat < 2 ^ 20 ∧ cflSklDecodeChannel a mc = ch := by
  unfold channelsInUse at h
  by_cases hmask : channelMask mc = 0
  · rw [if_pos hmask, List.mem_singleton] at h
    refine ⟨0, Nat.dvd_zero 64, by decide, ?_⟩
    rw [decodeChannel_eq_parity, channelParity, hmask, UInt64.and_zero, UInt64.toNat_zero,
      oddBits_zero, h]
    exact UInt8.xor_zero
  · rw [if_neg hmask] at h
    obtain ⟨v, hv⟩ : ∃ v, ch = ofBool v := by
      rcases List.mem_cons.mp h with h | h
      · exact ⟨false, h⟩
      · exact ⟨true, List.mem_singleton.mp h⟩
    have hne : (channelMask mc).toNat ≠ 0 := by
      intro hzero
      exact hmask (UInt64.toNat_inj.mp hzero)
    obtain ⟨x, hx, hodd⟩ := exists_parity (n := 64) (by decide) (channelMask_lt mc) hne v
    have ha : (UInt64.ofNat (64 * x)).toNat = 64 * x := by
      rw [UInt64.toNat_ofNat']
      omega
    refine ⟨UInt64.ofNat (64 * x), ?_, ?_, ?_⟩
    · rw [ha]
      exact Nat.dvd_mul_right 64 x
    · rw [ha]
      omega
    · have hshift : (UInt64.ofNat (64 * x) >>> 6).toNat = x := by
        rw [UInt64.toNat_shiftRight, ha]
        change (64 * x) >>> 6 = x
        rw [Nat.shiftRight_eq_div_pow]
        omega
      rw [decodeChannel_eq_parity, channelBase_of_mask hmask, UInt8.zero_xor, channelParity,
        UInt64.toNat_and, hshift, hodd, hv]

theorem flip_lt {a i : ℕ} (ha : a < 2 ^ 20) (hi : 20 ≤ i) : a ^^^ 2 ^ i < 2 ^ i + 2 ^ 20 := by
  have hhigh : (a ^^^ 2 ^ i) / 2 ^ 20 = 2 ^ (i - 20) := by
    rw [← Nat.shiftRight_eq_div_pow, Nat.shiftRight_xor_distrib, Nat.shiftRight_eq_div_pow,
      Nat.shiftRight_eq_div_pow, Nat.div_eq_of_lt ha, Nat.zero_xor, Nat.pow_div hi (by decide)]
  have hpow : 2 ^ i = 2 ^ (i - 20) * 2 ^ 20 := by
    rw [← Nat.pow_add, Nat.sub_add_cancel hi]
  have hdiv := Nat.div_add_mod (a ^^^ 2 ^ i) (2 ^ 20)
  have hmod : (a ^^^ 2 ^ i) % 2 ^ 20 < 2 ^ 20 := Nat.mod_lt _ (by decide)
  rw [hhigh, Nat.mul_comm] at hdiv
  omega

/-- Memory goes on for a MiB behind an installed address which is a power of two. -/
theorem room_above (h : Valid mc) {i : ℕ} (hi : 2 ^ i < totalBytes mc) :
    2 ^ i + 2 ^ 20 ≤ totalBytes mc ∧ i < 38 := by
  obtain ⟨g, htotal, hpos, hlt⟩ := totalBytes_eq h
  rw [htotal] at hi ⊢
  constructor
  · by_cases h30 : i < 30
    · have hpow : 2 ^ i ≤ 2 ^ 29 := Nat.pow_le_pow_right (by decide) (by omega)
      omega
    · have hpow : 2 ^ i = 2 ^ (i - 30) * 2 ^ 30 := by
        rw [← Nat.pow_add, Nat.sub_add_cancel (by omega)]
      rw [hpow] at hi ⊢
      have := Nat.lt_of_mul_lt_mul_right hi
      omega
  · by_contra hge
    have hpow : 2 ^ 38 ≤ 2 ^ i := Nat.pow_le_pow_right (by decide) (by omega)
    omega

theorem cell_of_flip (h : Valid mc) {a b : UInt64} {i : ℕ} (hdiff : (a ^^^ b).toNat = 2 ^ i)
    (hi : i = 17 ∧ (channelMask mc).toNat.testBit 11 = false ∨ 18 + rowWidth mc ≤ i)
    (hrank : ¬IsRankBit mc (cflSklDecodeChannel a mc) i) :
    cellOf (cflSklDecodePa (some mc) a) = cellOf (cflSklDecodePa (some mc) b) := by
  obtain ⟨hwidth, -⟩ := rowWidth_bounds h
  have hbits (j : ℕ) (hj : j ≠ i) : a.toNat.testBit j = b.toNat.testBit j := by
    have hxor := congrArg (fun x => Nat.testBit x j) hdiff
    simp only [UInt64.toNat_xor, Nat.testBit_xor, Nat.testBit_two_pow_of_ne (Ne.symm hj)] at hxor
    simpa using hxor
  rw [cell_eq_iff h]
  refine ⟨?_, ?_, ?_⟩
  · rw [channelParity_bit17 mc, hdiff]
    · rcases hi with ⟨-, hmask⟩ | hi
      · rw [hmask, Bool.and_false]
      · rw [Nat.testBit_two_pow_of_ne (show i ≠ 17 by omega), Bool.false_and]
    · intro j hlo hhi hj
      rw [hdiff]
      exact Nat.testBit_two_pow_of_ne (by omega)
  · intro n hn
    apply hbits
    intro hni
    exact hrank ⟨n, hn, hni⟩
  · intro j hlo hhi hj
    exact hbits j (by omega)

theorem blockBase_flip (h : Valid mc) {a : UInt64} {i : ℕ} (haligned : 64 ∣ a.toNat)
    (hsmall : a.toNat < 2 ^ 20) (h6 : 6 ≤ i) (hlt : 2 ^ i < totalBytes mc) :
    BlockBase mc a ∧ ∃ b, BlockBase mc b ∧ (a ^^^ b).toNat = 2 ^ i := by
  obtain ⟨hroom, -⟩ := room_above h hlt
  have hpos : 0 < 2 ^ i := Nat.two_pow_pos i
  have hmax : totalBytes mc < 2 ^ 64 := UInt64.toNat_lt _
  have hflip : a.toNat ^^^ 2 ^ i < totalBytes mc := by
    by_cases h20 : 20 ≤ i
    · exact (flip_lt hsmall h20).trans_le hroom
    · have hsame := Nat.xor_lt_two_pow hsmall
        (Nat.pow_lt_pow_right (a := 2) (by decide) (Nat.lt_of_not_le h20))
      omega
  have hb : (UInt64.ofNat (a.toNat ^^^ 2 ^ i)).toNat = a.toNat ^^^ 2 ^ i := by
    rw [UInt64.toNat_ofNat', Nat.mod_eq_of_lt (hflip.trans hmax)]
  constructor
  · refine ⟨haligned, UInt64.lt_iff_toNat_lt.mpr ?_⟩
    change a.toNat < totalBytes mc
    omega
  · refine ⟨UInt64.ofNat (a.toNat ^^^ 2 ^ i), ⟨?_, UInt64.lt_iff_toNat_lt.mpr ?_⟩, ?_⟩
    · have h64 : 2 ^ i % 2 ^ 6 = 0 := Nat.mod_eq_zero_of_dvd (Nat.pow_dvd_pow 2 h6)
      have ha : a.toNat % 2 ^ 6 = 0 := Nat.mod_eq_zero_of_dvd haligned
      apply Nat.dvd_of_mod_eq_zero
      rw [hb, show 64 = 2 ^ 6 from rfl, Nat.xor_mod_two_pow, ha, h64, Nat.xor_self]
    · rw [hb]
      exact hflip
    · rw [UInt64.toNat_xor, hb, ← Nat.xor_assoc, Nat.xor_self, Nat.zero_xor]

/-- A bit is lost when it is neither in a field nor in the hash nor selects the rank. -/
theorem lost_of_bit (h : Valid mc) {ch : UInt8} (hch : ch ∈ channelsInUse mc) {i : ℕ}
    (hi : i = 17 ∧ (channelMask mc).toNat.testBit 11 = false ∨ 18 + rowWidth mc ≤ i)
    (hlt : 2 ^ i < totalBytes mc) (hrank : ¬IsRankBit mc ch i) : ¬LosesNoBit mc := by
  intro hkeeps
  obtain ⟨a, haligned, hsmall, hchannel⟩ := block_of_inUse hch
  obtain ⟨hbase, b, hbase', hdiff⟩ := blockBase_flip h haligned hsmall (by omega) hlt
  rw [hkeeps a b hbase hbase' (cell_of_flip h hdiff hi (hchannel ▸ hrank)), UInt64.xor_self,
    UInt64.toNat_zero] at hdiff
  exact absurd hdiff (Nat.two_pow_pos i).ne

theorem keepsBits_of_losesNoBit (h : Valid mc) (hkeeps : LosesNoBit mc) {ch : UInt8}
    (hch : ch ∈ channelsInUse mc) : KeepsBits mc ch := by
  constructor
  · by_contra hbit
    rw [not_or, Bool.not_eq_true] at hbit
    obtain ⟨g, htotal, hpos, -⟩ := totalBytes_eq h
    exact lost_of_bit h hch (Or.inl ⟨rfl, hbit.1⟩) (by rw [htotal]; omega) hbit.2 hkeeps
  · by_contra htop
    rw [not_or, not_and_or, not_le] at htop
    obtain ⟨hlarge, htop⟩ := htop
    by_cases hrank : IsRankBit mc ch (18 + rowWidth mc)
    · have hlarger : 2 ^ (19 + rowWidth mc) < totalBytes mc :=
        not_le.mp (htop.resolve_right (not_not.mpr hrank))
      refine lost_of_bit h hch (Or.inr (by omega)) hlarger ?_ hkeeps
      rintro ⟨n, hn, hn'⟩
      obtain ⟨m, hm, hm'⟩ := hrank
      rw [hn] at hm
      obtain rfl := RankMode.addressBit.inj hm
      omega
    · exact lost_of_bit h hch (Or.inr le_rfl) hlarge hrank hkeeps

theorem testBit_of_small {x n i : ℕ} (hx : x < 2 ^ n) (hi : n ≤ i) : x.testBit i = false :=
  Nat.testBit_lt_two_pow (hx.trans_le (Nat.pow_le_pow_right (by decide) hi))

theorem losesNoBit_of_keepsBits (h : Valid mc)
    (hkeeps : ∀ ch ∈ channelsInUse mc, KeepsBits mc ch) : LosesNoBit mc := by
  intro a b ha hb hcell
  obtain ⟨hpar, hrank, hfields⟩ := (cell_eq_iff h).mp hcell
  obtain ⟨hwidth, -⟩ := rowWidth_bounds h
  have hkeep := hkeeps _ (channel_mem_inUse mc a)
  have hrankBit {i : ℕ} (hi : IsRankBit mc (cflSklDecodeChannel a mc) i) :
      a.toNat.testBit i = b.toNat.testBit i := by
    obtain ⟨n, hn, rfl⟩ := hi
    exact hrank n hn
  have hxor (i : ℕ) : (a ^^^ b).toNat.testBit i = (a.toNat.testBit i ^^ b.toNat.testBit i) := by
    rw [UInt64.toNat_xor, Nat.testBit_xor]
  have hlow (x : UInt64) (hx : 64 ∣ x.toNat) (i : ℕ) (hi : i < 6) : x.toNat.testBit i = false := by
    obtain ⟨y, hy⟩ := hx
    rw [hy, show 64 = 2 ^ 6 from rfl, Nat.testBit_two_pow_mul]
    simp [Nat.not_le.mpr hi]
  have h17 : a.toNat.testBit 17 = b.toNat.testBit 17 := by
    rcases hkeep.bit17 with hmask | hi
    · rw [channelParity_bit17 mc, hmask, Bool.and_true, hxor] at hpar
      · simpa using hpar
      · intro i hlo hhi hi
        rw [hxor, hfields i hlo (by omega) hi, Bool.xor_self]
    · exact hrankBit hi
  have htop (i : ℕ) (hi : 18 + rowWidth mc ≤ i) : a.toNat.testBit i = b.toNat.testBit i := by
    have halt : a.toNat < totalBytes mc := UInt64.lt_iff_toNat_lt.mp ha.installed
    have hblt : b.toNat < totalBytes mc := UInt64.lt_iff_toNat_lt.mp hb.installed
    rcases hkeep.top with htotal | ⟨htotal, hbit⟩
    · rw [testBit_of_small (halt.trans_le htotal) hi, testBit_of_small (hblt.trans_le htotal) hi]
    · by_cases hi' : i = 18 + rowWidth mc
      · rw [hi']
        exact hrankBit hbit
      · rw [testBit_of_small (halt.trans_le htotal) (by omega),
          testBit_of_small (hblt.trans_le htotal) (by omega)]
  apply UInt64.toNat_inj.mp
  apply Nat.eq_of_testBit_eq
  intro i
  by_cases h6 : i < 6
  · rw [hlow a ha.aligned i h6, hlow b hb.aligned i h6]
  · by_cases hi : i = 17
    · rw [hi]
      exact h17
    · by_cases hrow : i < 18 + rowWidth mc
      · exact hfields i (by omega) hrow hi
      · exact htop i (by omega)

end

/-- No two blocks share a cell exactly when every channel in use keeps bit 17 and the bits
behind its row. -/
theorem losesNoBit_iff {host : McHost} {mc : McConfig} (h : cflSklConfig host = some mc) :
    LosesNoBit mc ↔ ∀ ch ∈ channelsInUse mc, KeepsBits mc ch :=
  ⟨fun hkeeps _ => keepsBits_of_losesNoBit (valid_of_config h) hkeeps,
    losesNoBit_of_keepsBits (valid_of_config h)⟩

/-- Bit 17 alone selects the channel. -/
theorem losesNoBit_hashed_bit17 : LosesNoBit (readConfig (dualChannelHost 0x20001).regs) := by
  have hconfig : cflSklConfig (dualChannelHost 0x20001) =
      some (readConfig (dualChannelHost 0x20001).regs) := by decide
  apply (losesNoBit_iff hconfig).mpr
  intro ch hch
  exact ⟨Or.inl (by decide), Or.inl (by decide)⟩

/-- Without channel hashing bit 17 is lost. -/
theorem bit17_lost : cflSklConfig (dualChannelHost 0) = some (readConfig (dualChannelHost 0).regs) ∧
    RanksKnown (readConfig (dualChannelHost 0).regs) ∧
    ¬LosesNoBit (readConfig (dualChannelHost 0).regs) := by
  refine ⟨by decide, ?_, ?_⟩
  · intro a ha
    have hmode : rankMode (readConfig (dualChannelHost 0).regs)
        (cflSklDecodeChannel a (readConfig (dualChannelHost 0).regs)) = .single := by
      have hranks (ch : UInt8) :
          channelMaxRanks ((readConfig (dualChannelHost 0).regs).channel ch) ≤ 1 := by
        unfold McConfig.channel
        split_ifs <;> decide
      exact if_pos (hranks _)
    change (cflSklDecodeRank a _ _).valid = true
    rw [decodeRank_eq_mode, hmode]
  · intro hkeeps
    have heq := hkeeps 0 0x20000 ⟨by decide, by decide⟩ ⟨by decide, by decide⟩ (by decide)
    exact absurd heq (by decide)

end BankFinder.LostBits
