import BankFinder.ShimDecoder

/-!
# The two decoders agree

Both decoders compute the same address map from the same registers. The register
fields bound every DIMM: at most 63 GiB, 1 to 8 ranks, chips of 8 or 16 bits. The
width of the chips cancels out of the row count, which is the size in GiB times
`2 ^ (13 - log ranks)`; rows are therefore 10 to 18 bits wide and neither of the
different fallbacks is ever taken.
-/

namespace BankFinder.DecoderAgreement
open BitLoops CflSkl ShimDecoder

/-- A DIMM of `gib` GiB with `2 ^ k` ranks. -/
structure DimmShape (d : McDimm) (gib k : ℕ) : Prop where
  gib_lt : gib < 64
  k_lt : k < 4
  populated_iff : d.populated = true ↔ gib ≠ 0
  size : d.sizeMb = UInt32.ofNat (gib * 1024)
  ranks : d.ranks = UInt8.ofNat (2 ^ k)
  width : d.width = 8 ∨ d.width = 16

theorem and_mask_toNat {x mask : UInt32} {k : ℕ} (hmask : mask.toNat = 2 ^ k - 1) :
    (x &&& mask).toNat = x.toNat % 2 ^ k := by
  rw [UInt32.toNat_and, hmask, Nat.and_two_pow_sub_one_eq_mod]

/-- One half of `decode_mad_dimm`: the fields of a slot from its masked bits. -/
theorem dimmShape_of_fields {x y : UInt32} {b : Prop} [Decidable b] :
    ∃ gib k, DimmShape ⟨x &&& 0x3F > 0, ((1 : UInt32) <<< (y &&& 0x3)).toUInt8,
      if b then 16 else 8, (x &&& 0x3F) * 1024⟩ gib k := by
  have hsize : (x &&& 0x3F).toNat = x.toNat % 64 := and_mask_toNat (k := 6) rfl
  have hranks : (y &&& 0x3).toNat = y.toNat % 4 := and_mask_toNat (k := 2) rfl
  refine ⟨x.toNat % 64, y.toNat % 4, ⟨Nat.mod_lt _ (by decide), Nat.mod_lt _ (by decide), ?_, ?_,
    ?_, ?_⟩⟩
  · rw [decide_eq_true_eq, gt_iff_lt, UInt32.lt_iff_toNat_lt, hsize]
    exact Nat.pos_iff_ne_zero
  · apply UInt32.toNat_inj.mp
    rw [UInt32.toNat_mul, UInt32.toNat_ofNat', hsize]
    rfl
  · have hy : y &&& 0x3 = UInt32.ofNat (y.toNat % 4) := by
      apply UInt32.toNat_inj.mp
      rw [hranks, UInt32.toNat_ofNat']
      omega
    rw [hy]
    have hlt : y.toNat % 4 < 4 := Nat.mod_lt _ (by decide)
    generalize y.toNat % 4 = k at hlt
    interval_cases k <;> rfl
  · by_cases hb : b
    · exact Or.inr (if_pos hb)
    · exact Or.inl (if_neg hb)

/-- Both slots have a shape, and a channel is populated when a slot is. -/
structure ChannelShape (ch : McChannel) : Prop where
  dimm0 : ∃ gib k, DimmShape ch.dimm0 gib k
  dimm1 : ∃ gib k, DimmShape ch.dimm1 gib k
  populated : ch.populated = (ch.dimm0.populated || ch.dimm1.populated)

theorem decodeMadDimm_shape (raw : UInt32) : ChannelShape (CflSkl.decodeMadDimm raw) :=
  ⟨dimmShape_of_fields, dimmShape_of_fields, rfl⟩

theorem DimmShape.sizeMb_toNat {d : McDimm} {gib k : ℕ} (h : DimmShape d gib k) :
    d.sizeMb.toNat = gib * 1024 := by
  rw [h.size, UInt32.toNat_ofNat']
  have := h.gib_lt
  omega

theorem DimmShape.sizeMb_ne_zero {d : McDimm} {gib k : ℕ} (h : DimmShape d gib k)
    (hp : d.populated = true) : d.sizeMb ≠ 0 := by
  intro hzero
  have hsize := h.sizeMb_toNat
  rw [hzero] at hsize
  have := h.populated_iff.mp hp
  change 0 = gib * 1024 at hsize
  omega

/-- The size of a slot in bytes. -/
theorem DimmShape.bytes_toNat {d : McDimm} {gib k : ℕ} (h : DimmShape d gib k) :
    (d.sizeMb.toUInt64 * 1024 * 1024).toNat = gib * 2 ^ 30 := by
  have hlt := h.gib_lt
  have hk : (1024 : UInt64).toNat = 1024 := rfl
  rw [UInt64.toNat_mul, UInt64.toNat_mul, UInt32.toNat_toUInt64, h.sizeMb_toNat, hk]
  omega

/-- The chip width cancels between the chips of a rank and the bytes of a chip row. -/
theorem DimmShape.divisors_mul {d : McDimm} {gib k : ℕ} (h : DimmShape d gib k) :
    (d.chipsPerRank.toUInt64 * d.ranks.toUInt64).toNat * d.bytesPerRow.toUInt64.toNat =
      2 ^ (13 + k) := by
  have hk := h.k_lt
  unfold McDimm.chipsPerRank McDimm.bytesPerRow
  rw [h.ranks]
  rcases h.width with hw | hw <;> rw [hw] <;> interval_cases k <;> rfl

theorem DimmShape.divisors_ne_zero {d : McDimm} {gib k : ℕ} (h : DimmShape d gib k) :
    ∀ divisor ∈ d.divisors, divisor ≠ 0 := by
  have hmul := h.divisors_mul
  have hpos : 0 < 2 ^ (13 + k) := Nat.two_pow_pos _
  intro divisor hmem hzero
  simp only [McDimm.divisors, List.mem_cons, List.not_mem_nil, or_false] at hmem
  rcases hmem with hw | hc | hb
  · rw [hzero] at hw
    rcases h.width with h8 | h16
    · rw [h8] at hw
      exact absurd hw (by decide)
    · rw [h16] at hw
      exact absurd hw (by decide)
  · rw [← hc, hzero, UInt64.toNat_zero, Nat.zero_mul] at hmul
    omega
  · rw [← hb, hzero, UInt64.toNat_zero, Nat.mul_zero] at hmul
    omega

/-- A bank has `2 ^ (13 - k)` rows for each GiB of the DIMM. -/
theorem DimmShape.rowsPerBank_toNat {d : McDimm} {gib k : ℕ} (h : DimmShape d gib k) :
    d.rowsPerBank.toNat = gib * 2 ^ (13 - k) := by
  have hk := h.k_lt
  have hpow : 2 ^ 30 = 2 ^ (13 - k) * 2 ^ (13 + k) * 16 := by
    rw [← Nat.pow_add, show 13 - k + (13 + k) = 26 by omega]
    norm_num
  have hsixteen : (16 : UInt64).toNat = 16 := rfl
  unfold McDimm.rowsPerBank
  rw [UInt64.toNat_div, UInt64.toNat_div, UInt64.toNat_div, h.bytes_toNat, hsixteen,
    Nat.div_div_eq_div_mul, Nat.div_div_eq_div_mul, ← Nat.mul_assoc, h.divisors_mul, hpow]
  calc gib * (2 ^ (13 - k) * 2 ^ (13 + k) * 16) / (2 ^ (13 + k) * 16)
      = gib * 2 ^ (13 - k) * (2 ^ (13 + k) * 16) / (2 ^ (13 + k) * 16) := by
        rw [Nat.mul_assoc, Nat.mul_assoc]
    _ = gib * 2 ^ (13 - k) := Nat.mul_div_cancel _ (by positivity)

/-- `10` to `18` row bits for every populated DIMM. -/
theorem DimmShape.log2_rowsPerBank {d : McDimm} {gib k : ℕ} (h : DimmShape d gib k)
    (hp : d.populated = true) :
    10 ≤ Nat.log2 d.rowsPerBank.toNat ∧ Nat.log2 d.rowsPerBank.toNat ≤ 18 := by
  have hgib := Nat.pos_of_ne_zero (h.populated_iff.mp hp)
  have hlt := h.gib_lt
  have hk := h.k_lt
  have hlow : 2 ^ 10 ≤ 2 ^ (13 - k) := Nat.pow_le_pow_right (by decide) (by omega)
  have hhigh : 2 ^ (13 - k) ≤ 2 ^ 13 := Nat.pow_le_pow_right (by decide) (by omega)
  have hrows : 1 * 2 ^ 10 ≤ gib * 2 ^ (13 - k) := Nat.mul_le_mul hgib hlow
  have hrows' : gib * 2 ^ (13 - k) ≤ 63 * 2 ^ 13 := Nat.mul_le_mul (by omega) hhigh
  rw [h.rowsPerBank_toNat]
  constructor
  · exact (Nat.le_log2 (by omega)).mpr (by omega)
  · exact Nat.le_of_lt_succ ((Nat.log2_lt (by omega)).mpr (by omega))

def shimDimm (d : McDimm) : ShimDimm := ⟨d.populated, d.ranks, d.width, d.sizeMb⟩

def shimChannel (ch : McChannel) : ShimChannel :=
  ⟨ch.populated, shimDimm ch.dimm0, shimDimm ch.dimm1⟩

/-- The shim's globals for a configuration of memtest. -/
def shimMc (mc : McConfig) : ShimMc :=
  ⟨mc.channelsPopulated > 0, mc.channelsPopulated, mc.chanHash, mc.madIntraCh0, mc.madIntraCh1,
    shimChannel mc.channel0, shimChannel mc.channel1⟩

theorem readRegisters_eq (regs : ImcRegisters) : readRegisters regs = shimMc (readConfig regs) :=
  rfl

theorem decodeChannel_eq (mc : McConfig) (pa : UInt64) :
    decodeChannel (shimMc mc) pa = cflSklDecodeChannel pa mc := rfl

theorem channelMaxRanks_eq (mc : McConfig) (ch : UInt8) :
    ShimDecoder.channelMaxRanks ((shimMc mc).channel ch) =
      CflSkl.channelMaxRanks (mc.channel ch) := by
  unfold ShimMc.channel McConfig.channel
  split_ifs <;> rfl

theorem decodeRank_eq (mc : McConfig) (pa : UInt64) (ch : UInt8) :
    decodeRank (shimMc mc) pa ch =
      ((cflSklDecodeRank pa ch mc).rank, (cflSklDecodeRank pa ch mc).valid) := by
  have h₀ : (shimMc mc).madIntraCh0 = mc.madIntraCh0 := rfl
  have h₁ : (shimMc mc).madIntraCh1 = mc.madIntraCh1 := rfl
  simp only [decodeRank, cflSklDecodeRank, channelMaxRanks_eq, h₀, h₁]
  split_ifs <;> rfl

/-- A configuration read from registers in which some slot is populated. -/
structure ConfigShape (mc : McConfig) : Prop where
  channel0 : ChannelShape mc.channel0
  channel1 : ChannelShape mc.channel1
  populated : mc.channelsPopulated > 0 ↔ mc.channel0.populated = true ∨ mc.channel1.populated = true

theorem readConfig_shape (regs : ImcRegisters) : ConfigShape (readConfig regs) := by
  have hcount (a b : Bool) : a.toNat.toUInt8 + b.toNat.toUInt8 > 0 ↔ a = true ∨ b = true := by
    cases a <;> cases b <;> decide
  exact ⟨decodeMadDimm_shape _, decodeMadDimm_shape _, hcount _ _⟩

/-- Both programs settle on the same DIMM: the first populated one. -/
theorem geometry_eq {mc : McConfig} (h : ConfigShape mc) :
    (shimMc mc).geometry = match mc.firstDimm with
      | none => {}
      | some d => ⟨d.sizeMb, d.ranks.toUInt32, d.width.toUInt32⟩ := by
  obtain ⟨⟨g₀, k₀, h₀⟩, ⟨g₁, k₁, h₁⟩, hp⟩ := h.channel0
  obtain ⟨⟨g₂, k₂, h₂⟩, ⟨g₃, k₃, h₃⟩, hp'⟩ := h.channel1
  have hn₀ := h₀.sizeMb_ne_zero
  have hn₁ := h₁.sizeMb_ne_zero
  have hn₂ := h₂.sizeMb_ne_zero
  have hn₃ := h₃.sizeMb_ne_zero
  simp only [ShimMc.geometry, ShimMc.channels, shimMc, shimChannel, List.foldl_cons,
    List.foldl_nil, scanChannel, ShimChannel.dimms, shimDimm, hp, hp', McConfig.firstDimm,
    McConfig.channels, McChannel.dimms, List.flatMap_cons, List.flatMap_nil, List.append_nil,
    List.cons_append, List.nil_append, List.find?_cons, List.find?_nil, scanDimm]
  cases hb₀ : mc.channel0.dimm0.populated <;> cases hb₁ : mc.channel0.dimm1.populated <;>
    cases hb₂ : mc.channel1.dimm0.populated <;> cases hb₃ : mc.channel1.dimm1.populated <;>
    simp_all

/-- The geometry of a DIMM in the shim's locals. -/
def dimmGeometry (d : McDimm) : Geometry := ⟨d.sizeMb, d.ranks.toUInt32, d.width.toUInt32⟩

theorem DimmShape.geometry_chain {d : McDimm} {gib k : ℕ} (h : DimmShape d gib k) :
    (dimmGeometry d).chipsPerRank = d.chipsPerRank ∧
      (dimmGeometry d).bytesPerRow = d.bytesPerRow.toUInt64 := by
  have hchain : ∀ w : UInt8, w = 8 ∨ w = 16 →
      (if w.toUInt32 = 0 then 8 else 64 / w.toUInt32) = 64 / w.toUInt32 ∧
        1024 * (w.toUInt32.toUInt64 / 8) = (1024 * (w.toUInt32 / 8)).toUInt64 := by
    intro w hw
    rcases hw with rfl | rfl <;> decide
  exact hchain d.width h.width

theorem DimmShape.geometry_rows {d : McDimm} {gib k : ℕ} (h : DimmShape d gib k) :
    (dimmGeometry d).rowsPerBank = d.rowsPerBank := by
  obtain ⟨hchips, hbytes⟩ := h.geometry_chain
  unfold Geometry.rowsPerBank McDimm.rowsPerBank
  rw [hchips, hbytes]
  rfl

theorem DimmShape.geometry_divisors {d : McDimm} {gib k : ℕ} (h : DimmShape d gib k) :
    (dimmGeometry d).divisors = d.divisors := by
  obtain ⟨hchips, hbytes⟩ := h.geometry_chain
  unfold Geometry.divisors McDimm.divisors
  rw [hchips, hbytes]
  rfl

theorem DimmShape.ranks_ne_zero {d : McDimm} {gib k : ℕ} (h : DimmShape d gib k) :
    d.ranks ≠ 0 := by
  have hk := h.k_lt
  rw [h.ranks]
  interval_cases k <;> decide

theorem firstDimm_shape {mc : McConfig} (h : ConfigShape mc) {d : McDimm}
    (hd : mc.firstDimm = some d) : d.populated = true ∧ ∃ gib k, DimmShape d gib k := by
  have hmem := List.mem_of_find?_eq_some hd
  refine ⟨List.find?_some hd, ?_⟩
  simp only [McConfig.channels, McChannel.dimms, List.flatMap_cons, List.flatMap_nil,
    List.append_nil, List.cons_append, List.nil_append, List.mem_cons, List.not_mem_nil,
    or_false] at hmem
  rcases hmem with rfl | rfl | rfl | rfl
  · exact h.channel0.dimm0
  · exact h.channel0.dimm1
  · exact h.channel1.dimm0
  · exact h.channel1.dimm1

theorem firstDimm_exists {mc : McConfig} (h : ConfigShape mc) (hp : mc.channelsPopulated > 0) :
    ∃ d, mc.firstDimm = some d := by
  rw [← Option.isSome_iff_exists, McConfig.firstDimm, List.find?_isSome]
  have hchannels := h.populated.mp hp
  rw [h.channel0.populated, h.channel1.populated, Bool.or_eq_true, Bool.or_eq_true] at hchannels
  simp only [McConfig.channels, McChannel.dimms, List.flatMap_cons, List.flatMap_nil,
    List.append_nil, List.cons_append, List.nil_append]
  rcases hchannels with (h₀ | h₁) | (h₂ | h₃)
  · exact ⟨_, by simp, h₀⟩
  · exact ⟨_, by simp, h₁⟩
  · exact ⟨_, by simp, h₂⟩
  · exact ⟨_, by simp, h₃⟩

/-- The row width of either program: the logarithm of the rows of a bank. -/
theorem DimmShape.rowBits {d : McDimm} {gib k : ℕ} (h : DimmShape d gib k)
    (hp : d.populated = true) : d.rowsPerBank ≠ 0 ∧
      log2Loop 64 d.rowsPerBank 0 = UInt32.ofNat (Nat.log2 d.rowsPerBank.toNat) := by
  constructor
  · intro hzero
    have hlog := (h.log2_rowsPerBank hp).1
    rw [hzero] at hlog
    exact absurd hlog (by decide)
  · rw [log2Loop_eq d.rowsPerBank.toNat_lt, UInt32.zero_add]

theorem cflSklRowBits_eq {mc : McConfig} {d : McDimm} {gib k : ℕ} (hd : mc.firstDimm = some d)
    (h : DimmShape d gib k) (hp : d.populated = true) :
    cflSklRowBits (some mc) = UInt32.ofNat (Nat.log2 d.rowsPerBank.toNat) := by
  obtain ⟨hne, hlog⟩ := h.rowBits hp
  simp only [cflSklRowBits, Option.bind_some, hd, if_neg hne, hlog]

theorem shimRowBits_eq {mc : McConfig} (hmc : ConfigShape mc) (hpop : mc.channelsPopulated > 0)
    {d : McDimm} {gib k : ℕ} (hd : mc.firstDimm = some d) (h : DimmShape d gib k)
    (hp : d.populated = true) :
    shimRowBits (shimMc mc) = UInt32.ofNat (Nat.log2 d.rowsPerBank.toNat) := by
  have hgeometry : (shimMc mc).geometry = dimmGeometry d := by
    rw [geometry_eq hmc, hd]
    rfl
  obtain ⟨hne, hlog⟩ := h.rowBits hp
  have hdivs := h.divisors_ne_zero
  rw [← h.geometry_divisors] at hdivs
  simp only [Geometry.divisors, List.mem_cons, List.not_mem_nil, or_false,
    forall_eq_or_imp, forall_eq] at hdivs
  obtain ⟨hwidth, hchips, hbytes⟩ := hdivs
  have hvalid : (!(shimMc mc).valid) = false := by simp [shimMc, hpop]
  have hsize : ¬((dimmGeometry d).sizeMb = 0 ∨ (dimmGeometry d).ranks = 0 ∨
      (dimmGeometry d).width = 0) := by
    intro hbad
    rcases hbad with hs | hr | hw
    · exact h.sizeMb_ne_zero hp hs
    · exact h.ranks_ne_zero (by simpa [dimmGeometry, ← UInt32.toNat_inj, ← UInt8.toNat_inj] using hr)
    · exact hwidth (by rw [hw]; rfl)
  have hchip : (dimmGeometry d).chipsPerRank ≠ 0 := by
    intro hzero
    exact hchips (by rw [hzero]; exact UInt64.zero_mul)
  simp only [shimRowBits, hvalid, hgeometry, if_neg hsize, if_neg hchip, if_neg hbytes,
    h.geometry_rows, if_neg hne, hlog]
  simp

/-- The row widths agree and lie in `10..18`. -/
theorem rowBits_agree {mc : McConfig} (hmc : ConfigShape mc) (hpop : mc.channelsPopulated > 0) :
    shimRowBits (shimMc mc) = cflSklRowBits (some mc) ∧
      10 ≤ (cflSklRowBits (some mc)).toNat ∧ (cflSklRowBits (some mc)).toNat ≤ 18 := by
  obtain ⟨d, hd⟩ := firstDimm_exists hmc hpop
  obtain ⟨hp, gib, k, hshape⟩ := firstDimm_shape hmc hd
  obtain ⟨hlow, hhigh⟩ := hshape.log2_rowsPerBank hp
  rw [shimRowBits_eq hmc hpop hd hshape hp, cflSklRowBits_eq hd hshape hp, UInt32.toNat_ofNat']
  refine ⟨rfl, ?_, ?_⟩ <;> omega

/-- The fields which the two result records share. -/
structure DecodesAgree (d : ShimPaDecoded) (e : PaDecoded) : Prop where
  valid : d.valid = e.valid
  channel : d.channel = e.channel
  rank : d.rank = e.rank
  rankValid : d.rankValid = e.rankValid
  bankGroup : d.bankGroup = e.bankGroup
  bank : d.bank = e.bank
  row : d.row = e.row
  bankRowValid : d.bankRowValid = e.bankRowValid

/-- Both programs decode alike, and every division of the row width is defined. -/
structure DecodersAgree (shim : ShimMc) (config : Option McConfig) : Prop where
  decode : ∀ pa, DecodesAgree (shimCflDecodePa shim pa) (cflSklDecodePa config pa)
  decode_valid : ∀ pa, (shimCflDecodePa shim pa).valid = true
  totalMemory : shimCflTotalMemory shim = cflSklTotalMemory config
  rowBits : shimRowBits shim = cflSklRowBits config
  rowBits_pos : 1 ≤ (shimRowBits shim).toNat
  rowBits_le : (shimRowBits shim).toNat ≤ 20
  shim_divisors : ∀ divisor ∈ shim.geometry.divisors, divisor ≠ 0
  divisors : ∀ d ∈ config.bind McConfig.firstDimm, ∀ divisor ∈ d.divisors, divisor ≠ 0

section
variable {mc : McConfig}

theorem decodePa_agree (hmc : ConfigShape mc) (hpop : mc.channelsPopulated > 0) (pa : UInt64) :
    DecodesAgree (shimCflDecodePa (shimMc mc) pa) (cflSklDecodePa (some mc) pa) := by
  obtain ⟨hbits, hlow, hhigh⟩ := rowBits_agree hmc hpop
  have hvalid : (!(shimMc mc).valid) = false := by simp [shimMc, hpop]
  have hinside : cflSklRowBits (some mc) > 0 ∧ cflSklRowBits (some mc) ≤ 20 := by
    rw [gt_iff_lt, UInt32.lt_iff_toNat_lt, UInt32.le_iff_toNat_le]
    change 0 < _ ∧ _ ≤ 20
    omega
  have hrank := decodeRank_eq mc pa (cflSklDecodeChannel pa mc)
  simp only [shimCflDecodePa, cflSklDecodePa, hvalid, decodeChannel_eq, hrank]
  unfold shimDecodeBankRow cflSklDecodeBankRowCol
  simp only [hbits, if_pos hinside]
  exact ⟨rfl, rfl, rfl, rfl, rfl, rfl, rfl, rfl⟩

theorem agree_of_shape (hmc : ConfigShape mc) (hpop : mc.channelsPopulated > 0) :
    DecodersAgree (shimMc mc) (some mc) := by
  obtain ⟨hbits, hlow, hhigh⟩ := rowBits_agree hmc hpop
  obtain ⟨d, hd⟩ := firstDimm_exists hmc hpop
  obtain ⟨hp, gib, k, hshape⟩ := firstDimm_shape hmc hd
  have hvalid : (!(shimMc mc).valid) = false := by simp [shimMc, hpop]
  have hgeometry : (shimMc mc).geometry = dimmGeometry d := by
    rw [geometry_eq hmc, hd]
    rfl
  refine ⟨decodePa_agree hmc hpop, ?_, ?_, hbits, by rw [hbits]; omega, by rw [hbits]; omega, ?_,
    ?_⟩
  · intro pa
    rw [(decodePa_agree hmc hpop pa).valid]
    rfl
  · simp only [shimCflTotalMemory, hvalid]
    rfl
  · rw [hgeometry, hshape.geometry_divisors]
    exact hshape.divisors_ne_zero
  · intro d' hd'
    rw [Option.bind_some, hd, Option.mem_some] at hd'
    rw [← hd']
    exact hshape.divisors_ne_zero

end

theorem add_aligned {x y : UInt64} (hx : 4096 ∣ x.toNat) (hy : 4096 ∣ y.toNat) :
    4096 ∣ (x + y).toNat := by
  rw [UInt64.toNat_add]
  omega

theorem channel_total_aligned {ch : McChannel} (h : ChannelShape ch) {total : UInt64}
    (htotal : 4096 ∣ total.toNat) :
    4096 ∣ (ch.dimms.foldl (fun total d =>
      if !d.populated then total else total + d.sizeMb.toUInt64 * 1024 * 1024) total).toNat := by
  have hadd (d : McDimm) (hd : ∃ gib k, DimmShape d gib k) (x : UInt64) (hx : 4096 ∣ x.toNat) :
      4096 ∣ (if !d.populated then x else x + d.sizeMb.toUInt64 * 1024 * 1024).toNat := by
    obtain ⟨gib, k, hshape⟩ := hd
    split_ifs
    · exact hx
    · apply add_aligned hx
      rw [hshape.bytes_toNat]
      omega
  simp only [McChannel.dimms, List.foldl_cons, List.foldl_nil]
  exact hadd _ h.dimm1 _ (hadd _ h.dimm0 _ htotal)

/-- Installed memory ends at a page boundary. -/
theorem totalMemory_aligned {mc : McConfig} (h : ConfigShape mc) :
    4096 ∣ (cflSklTotalMemory (some mc)).toNat := by
  have hadd (ch : McChannel) (hch : ChannelShape ch) (x : UInt64) (hx : 4096 ∣ x.toNat) :
      4096 ∣ (if !ch.populated then x else ch.dimms.foldl (fun total d =>
        if !d.populated then total else total + d.sizeMb.toUInt64 * 1024 * 1024) x).toNat := by
    by_cases hp : (!ch.populated) = true
    · rw [if_pos hp]
      exact hx
    · rw [if_neg hp]
      exact channel_total_aligned hch hx
  simp only [cflSklTotalMemory, McConfig.channels, List.foldl_cons, List.foldl_nil]
  exact hadd _ h.channel1 _ (hadd _ h.channel0 0 (Nat.dvd_zero 4096))

theorem shimTotal_aligned {mc : McConfig} (hmc : ConfigShape mc)
    (hpop : mc.channelsPopulated > 0) : 4096 ∣ (shimCflTotalMemory (shimMc mc)).toNat := by
  rw [(agree_of_shape hmc hpop).totalMemory]
  exact totalMemory_aligned hmc

theorem channel_populated_iff (raw : UInt32) : (CflSkl.decodeMadDimm raw).populated = true ↔
    raw &&& 0x3F ≠ 0 ∨ (raw >>> 16) &&& 0x3F ≠ 0 := by
  have hpos (x : UInt32) : x > 0 ↔ x ≠ 0 := by
    rw [gt_iff_lt, UInt32.lt_iff_toNat_lt, Ne, ← UInt32.toNat_inj]
    exact Nat.pos_iff_ne_zero
  simp only [CflSkl.decodeMadDimm, Bool.or_eq_true, decide_eq_true_eq, hpos]
  rfl

theorem hasDimm_iff (regs : ImcRegisters) :
    regs.HasDimm ↔ (readConfig regs).channelsPopulated > 0 := by
  rw [(readConfig_shape regs).populated]
  unfold ImcRegisters.HasDimm
  simp only [List.mem_cons, List.not_mem_nil, or_false, exists_eq_or_imp, exists_eq_left,
    ← channel_populated_iff]
  rfl

theorem cflSklConfig_of_accessible {host : McHost} (h : host.accessible = true)
    (hdimm : host.regs.HasDimm) : cflSklConfig host = some (readConfig host.regs) := by
  unfold McHost.accessible at h
  rw [Bool.and_eq_true, Bool.and_eq_true, bne_iff_ne] at h
  obtain ⟨⟨hdetect, hbase⟩, hmapped⟩ := h
  unfold cflSklConfig
  rw [hdetect, hmapped, if_neg (by decide), if_neg hbase, if_neg (by decide)]
  exact if_pos ((hasDimm_iff host.regs).mp hdimm)

theorem shimCflInit_of_accessible {host : ShimHost} (h : host.accessible = true) :
    shimCflInit host = shimMc (readConfig host.regs) := by
  unfold ShimHost.accessible at h
  rw [Bool.and_eq_true, Bool.and_eq_true, bne_iff_ne, bne_iff_ne] at h
  obtain ⟨⟨hcpu, henabled⟩, hbase⟩ := h
  unfold shimCflInit
  rw [hcpu, if_neg (by decide), if_neg henabled, if_neg hbase]
  exact readRegisters_eq host.regs

/-- For all register values with a populated DIMM the two programs agree. -/
theorem decoders_agree (shim : ShimHost) (host : McHost) (hshim : shim.accessible = true)
    (hhost : host.accessible = true) (hregs : shim.regs = host.regs)
    (hdimm : host.regs.HasDimm) : DecodersAgree (shimCflInit shim) (cflSklConfig host) := by
  rw [shimCflInit_of_accessible hshim, cflSklConfig_of_accessible hhost hdimm, hregs]
  exact agree_of_shape (readConfig_shape host.regs) ((hasDimm_iff host.regs).mp hdimm)

/-- The two channels of 16 GiB of the board this was written for. -/
theorem decoders_agree_sixteen_gib :
    let regs : ImcRegisters := ⟨0, 0, 0x410, 0x410, 0⟩
    shimRowBits (shimCflInit ⟨0x906ea, 0xfed10001, 0, regs⟩) =
      cflSklRowBits (cflSklConfig ⟨0x47, 6, 0xe, 9, 0xfed10001, 0xfed10001, 0, true, regs⟩) :=
  (decoders_agree _ _ (by decide) (by decide) rfl (by decide)).rowBits

end BankFinder.DecoderAgreement
