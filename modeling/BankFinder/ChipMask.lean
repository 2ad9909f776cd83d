import BankFinder.BoardTopology
import BankFinder.PageDecode

/-!
# Chip masking

`mask_chips` walks the installed memory page by page, decodes the base of each
page and reserves the page when channel and rank are those of a resolved chip.
Other addresses of the page are not looked at, and an unknown rank counts as 0.
-/

namespace BankFinder.ChipMask
open BitLoops Nvram BootSession CflSkl ShimDecoder DecoderAgreement PageDecode BoardTopology

/-- `desig_eq`: skip the common characters, then both texts must have ended. -/
def desigEq : List UInt8 → List UInt8 → Bool
  | a :: as, b :: bs => if a = b then desigEq as bs else false
  | [], [] => true
  | _, _ => false

/-- The first package of all profiles with the designator of the entry. -/
def findPackage (profiles : List BoardProfile) (designator : List UInt8) : Option BoardPackage :=
  (profiles.flatMap BoardProfile.packages).find? fun pkg => desigEq pkg.designator designator

def resolveChip (profiles : List BoardProfile) (ce : BadmemChip) : BadmemChip :=
  match findPackage profiles ce.designator with
  | some pkg =>
      { ce with
        channel := pkg.channel
        rank := pkg.rank
        byteLane := pkg.byteLane
        resolved := true }
  | none => ce

def resolveChipEntries (profiles : List BoardProfile) (chips : List BadmemChip) :
    List BadmemChip := chips.map (resolveChip profiles)

theorem desigEq_iff (a b : List UInt8) : desigEq a b = true ↔ a = b := by
  induction a generalizing b with
  | nil => cases b <;> simp [desigEq]
  | cons x a ih =>
      cases b with
      | nil => simp [desigEq]
      | cons y b => simp [desigEq, ih]

/-- A designator of the table is resolved. -/
theorem resolveChip_resolved {profiles : List BoardProfile} {ce : BadmemChip}
    (h : ∃ p ∈ profiles, ∃ pkg ∈ p.packages, pkg.designator = ce.designator) :
    (resolveChip profiles ce).resolved = true := by
  obtain ⟨p, hp, pkg, hpkg, heq⟩ := h
  have hfound : (findPackage profiles ce.designator).isSome = true := by
    unfold findPackage
    rw [List.find?_isSome]
    exact ⟨pkg, List.mem_flatMap.mpr ⟨p, hp, hpkg⟩, (desigEq_iff _ _).mpr heq⟩
  unfold resolveChip
  obtain ⟨found, hfound⟩ := Option.isSome_iff_exists.mp hfound
  rw [hfound]

@[simp] theorem resolveChip_designator (profiles : List BoardProfile) (ce : BadmemChip) :
    (resolveChip profiles ce).designator = ce.designator := by
  unfold resolveChip
  cases findPackage profiles ce.designator <;> rfl

def chipMatches (chips : List BadmemChip) (d : ShimPaDecoded) : Bool :=
  chips.any fun c => c.resolved && c.channel == d.channel && c.rank == d.rank

section
variable {σ : Type}

def maskChipPage (fw : Firmware σ) (mc : ShimMc) (chips : List BadmemChip) (s : Session σ)
    (pa : UInt64) : Session σ :=
  let d := shimCflDecodePa mc pa
  if !d.valid then s
  else if !chipMatches chips d then s
  else (allocatePages fw pa s).2

def maskChips (fw : Firmware σ) (host : ShimHost) (chips : List BadmemChip) (s : Session σ) :
    EfiStatus × Session σ :=
  let s := s.log (.maskChips chips)
  if chips.isEmpty then (efiSuccess, s)
  else if !chips.any BadmemChip.resolved then (efiSuccess, s)
  else
    let mc := shimCflInit host
    if !mc.valid then (efiUnsupported, s)
    else
      let total := shimCflTotalMemory mc
      if total = 0 then (efiUnsupported, s)
      else (efiSuccess, (pages 0 total).foldl (maskChipPage fw mc chips) s)

/-- The pages whose base matches a chip. -/
def scannedPages (mc : ShimMc) (chips : List BadmemChip) : List UInt64 :=
  (pages 0 (shimCflTotalMemory mc)).filter fun pa =>
    (shimCflDecodePa mc pa).valid && chipMatches chips (shimCflDecodePa mc pa)

theorem foldl_maskChipPage_attempts (fw : Firmware σ) (mc : ShimMc) (chips : List BadmemChip)
    (pas : List UInt64) (s : Session σ) :
    attempts (pas.foldl (maskChipPage fw mc chips) s).trace =
      attempts s.trace ++ pas.filter fun pa =>
        (shimCflDecodePa mc pa).valid && chipMatches chips (shimCflDecodePa mc pa) := by
  induction pas generalizing s with
  | nil => simp
  | cons pa pas ih =>
      rw [List.foldl_cons, ih, maskChipPage]
      cases hvalid : (shimCflDecodePa mc pa).valid with
      | false => simp [hvalid]
      | true =>
          cases hmatch : chipMatches chips (shimCflDecodePa mc pa) with
          | false => simp [hvalid, hmatch]
          | true => simp [hvalid, hmatch]

theorem chipMatches_of_unresolved {chips : List BadmemChip}
    (h : chips.any BadmemChip.resolved = false) (d : ShimPaDecoded) :
    chipMatches chips d = false := by
  rw [List.any_eq_false] at h
  unfold chipMatches
  rw [List.any_eq_false]
  intro c hc
  simp [Bool.eq_false_iff.mpr (h c hc)]

/-- When the walk reports success it has tried exactly the scanned pages. -/
theorem maskChips_attempts (fw : Firmware σ) (host : ShimHost) (chips : List BadmemChip)
    (s : Session σ) (h : (maskChips fw host chips s).1 = efiSuccess) :
    attempts (maskChips fw host chips s).2.trace =
      attempts s.trace ++ scannedPages (shimCflInit host) chips := by
  have hnone (hun : chips.any BadmemChip.resolved = false) :
      scannedPages (shimCflInit host) chips = [] := by
    unfold scannedPages
    rw [List.filter_eq_nil_iff]
    intro pa _
    rw [chipMatches_of_unresolved hun]
    simp
  unfold maskChips at h ⊢
  simp only at h ⊢
  cases hempty : chips.isEmpty with
  | true =>
      have hun : chips.any BadmemChip.resolved = false := by
        rw [List.isEmpty_iff.mp hempty]
        rfl
      rw [if_pos rfl, hnone hun]
      simp
  | false =>
      rw [hempty] at h
      rw [if_neg Bool.false_ne_true] at h ⊢
      cases hres : chips.any BadmemChip.resolved with
      | false =>
          rw [Bool.not_false, if_pos rfl, hnone hres]
          simp
      | true =>
          rw [hres] at h
          rw [Bool.not_true, if_neg Bool.false_ne_true] at h ⊢
          cases hvalid : (shimCflInit host).valid with
          | false =>
              rw [hvalid, Bool.not_false, if_pos rfl] at h
              exact absurd h efiUnsupported_ne_success
          | true =>
              rw [hvalid] at h
              rw [Bool.not_true, if_neg Bool.false_ne_true] at h ⊢
              by_cases htotal : shimCflTotalMemory (shimCflInit host) = 0
              · rw [if_pos htotal] at h
                exact absurd h efiUnsupported_ne_success
              · rw [if_neg htotal, foldl_maskChipPage_attempts]
                simp [scannedPages]

theorem onlyAllocates_maskChipPage (fw : Firmware σ) (mc : ShimMc) (chips : List BadmemChip)
    (s : Session σ) (pa : UInt64) : OnlyAllocates s (maskChipPage fw mc chips s pa) := by
  unfold maskChipPage
  simp only
  split_ifs
  · exact OnlyAllocates.refl s
  · exact OnlyAllocates.refl s
  · exact onlyAllocates_allocatePages fw pa s

theorem onlyAllocates_maskChips (fw : Firmware σ) (host : ShimHost) (chips : List BadmemChip)
    (s : Session σ) : OnlyAllocates (s.log (.maskChips chips)) (maskChips fw host chips s).2 := by
  have hnone := OnlyAllocates.refl (s.log (.maskChips chips))
  unfold maskChips
  simp only
  split_ifs
  · exact hnone
  · exact hnone
  · exact hnone
  · exact hnone
  · exact OnlyAllocates.foldl id (onlyAllocates_maskChipPage fw (shimCflInit host) chips) _ _

theorem maskChips_status (fw : Firmware σ) {host : ShimHost}
    (hvalid : (shimCflInit host).valid = true) (chips : List BadmemChip) (s : Session σ) :
    (maskChips fw host chips s).1 = efiSuccess ∨ shimCflTotalMemory (shimCflInit host) = 0 := by
  unfold maskChips
  simp only [hvalid]
  by_cases htotal : shimCflTotalMemory (shimCflInit host) = 0
  · exact Or.inr htotal
  · left
    cases chips.isEmpty with
    | true => rfl
    | false =>
        cases chips.any BadmemChip.resolved with
        | false => rfl
        | true =>
            rw [Bool.not_true, if_neg Bool.false_ne_true, if_neg Bool.false_ne_true,
              if_neg Bool.false_ne_true, if_neg htotal]

/-- Same channel, and same rank when the rank is known. -/
def Compatible (d : ShimPaDecoded) (c : BadmemChip) : Prop :=
  d.valid = true ∧ c.channel = d.channel ∧ (d.rankValid = true → c.rank = d.rank)

/-- After a successful walk every page below installed memory which holds an
address compatible with a resolved chip was passed to `AllocatePages`. -/
def ChipsComplete (fw : Firmware σ) (host : ShimHost) (chips : List BadmemChip)
    (s : Session σ) : Prop :=
  (maskChips fw host chips s).1 = efiSuccess →
    ∀ p : UInt64, 4096 ∣ p.toNat → p < shimCflTotalMemory (shimCflInit host) →
      (∃ a, pageAlign a = p ∧ ∃ c ∈ chips, c.resolved = true ∧
        Compatible (shimCflDecodePa (shimCflInit host) a) c) →
      p ∈ (attempts (maskChips fw host chips s).2.trace).drop (attempts s.trace).length

end

section
variable (mc : McConfig)

/-- Some address of page `p` is compatible with the chip, read off the registers:
its channel is the one of the page base or a hashed offset bit changes it, and its
rank is the one of the page base, or unknown, or selected by an offset bit. -/
def Reaches (p : UInt64) (c : BadmemChip) : Prop :=
  match rankMode mc c.channel with
  | .single => c.rank = 0 ∧ ChannelReaches mc p c.channel
  | .unknown => ChannelReaches mc p c.channel
  | .addressBit n =>
      if n.toNat < 12 then ∃ v, c.rank = ofBool v ∧ OffsetReaches mc p c.channel n.toNat v
      else c.rank = ofBool (p.toNat.testBit n.toNat) ∧ ChannelReaches mc p c.channel

/-- Channel and rank of the page base itself are those of the chip. -/
def Scanned (p : UInt64) (c : BadmemChip) : Prop :=
  c.channel = cflSklDecodeChannel p mc ∧
    c.rank = (cflSklDecodeRank p (cflSklDecodeChannel p mc) mc).rank

variable {mc} (hmc : ConfigShape mc) (hpop : mc.channelsPopulated > 0)
include hmc hpop

theorem compatible_iff (a : UInt64) (c : BadmemChip) :
    Compatible (shimCflDecodePa (shimMc mc) a) c ↔ c.channel = cflSklDecodeChannel a mc ∧
      ((cflSklDecodeRank a c.channel mc).valid = true →
        c.rank = (cflSklDecodeRank a c.channel mc).rank) := by
  have hagree := decodePa_agree hmc hpop a
  have hvalid := (agree_of_shape hmc hpop).decode_valid a
  have hchannel : (shimCflDecodePa (shimMc mc) a).channel = cflSklDecodeChannel a mc :=
    hagree.channel
  have hrank : (shimCflDecodePa (shimMc mc) a).rank =
      (cflSklDecodeRank a (cflSklDecodeChannel a mc) mc).rank := hagree.rank
  have hknown : (shimCflDecodePa (shimMc mc) a).rankValid =
      (cflSklDecodeRank a (cflSklDecodeChannel a mc) mc).valid := hagree.rankValid
  unfold Compatible
  rw [hvalid, hchannel, hrank, hknown]
  constructor
  · intro h
    obtain ⟨-, hch, hr⟩ := h
    rw [hch]
    exact ⟨rfl, hr⟩
  · intro h
    obtain ⟨hch, hr⟩ := h
    rw [hch] at hr
    exact ⟨rfl, hch, hr⟩

theorem reaches_iff {p : UInt64} (hp : 4096 ∣ p.toNat) (c : BadmemChip) :
    (∃ a, pageAlign a = p ∧ Compatible (shimCflDecodePa (shimMc mc) a) c) ↔ Reaches mc p c := by
  simp only [compatible_iff hmc hpop, decodeRank_eq_mode, Reaches]
  cases hmode : rankMode mc c.channel with
  | single =>
      simp only [forall_const]
      constructor
      · intro h
        obtain ⟨a, ha, hch, hr⟩ := h
        exact ⟨hr, hch ▸ channelReaches_of_address mc ha⟩
      · intro h
        obtain ⟨a, ha, hch⟩ := address_of_channelReaches mc hp h.2
        exact ⟨a, ha, hch.symm, h.1⟩
  | unknown =>
      simp only [Bool.false_eq_true, false_implies, and_true]
      constructor
      · intro h
        obtain ⟨a, ha, hch⟩ := h
        exact hch ▸ channelReaches_of_address mc ha
      · intro h
        obtain ⟨a, ha, hch⟩ := address_of_channelReaches mc hp h
        exact ⟨a, ha, hch.symm⟩
  | addressBit n =>
      obtain ⟨h₆, -⟩ := rankBit_bounds mc hmode
      simp only [forall_const]
      by_cases hn : n.toNat < 12
      · rw [if_pos hn]
        constructor
        · intro h
          obtain ⟨a, ha, hch, hr⟩ := h
          exact ⟨_, hr, (offsetReaches_iff mc hp h₆ hn _).mpr ⟨a, ha, hch.symm, rfl⟩⟩
        · intro h
          obtain ⟨v, hr, hreach⟩ := h
          obtain ⟨a, ha, hch, hv⟩ := (offsetReaches_iff mc hp h₆ hn v).mp hreach
          exact ⟨a, ha, hch.symm, by rw [hv, hr]⟩
      · rw [if_neg hn]
        have hbit (a : UInt64) (ha : pageAlign a = p) :
            a.toNat.testBit n.toNat = p.toNat.testBit n.toNat := by
          rw [← ha, testBit_pageAlign]
          simp [Nat.le_of_not_lt hn]
        constructor
        · intro h
          obtain ⟨a, ha, hch, hr⟩ := h
          exact ⟨by rw [hr, hbit a ha], hch ▸ channelReaches_of_address mc ha⟩
        · intro h
          obtain ⟨hr, hreach⟩ := h
          obtain ⟨a, ha, hch⟩ := address_of_channelReaches mc hp hreach
          exact ⟨a, ha, hch.symm, by rw [hbit a ha, hr]⟩

theorem mem_scannedPages_iff (chips : List BadmemChip) (p : UInt64) :
    p ∈ scannedPages (shimMc mc) chips ↔ (4096 ∣ p.toNat ∧ p < shimCflTotalMemory (shimMc mc)) ∧
      ∃ c ∈ chips, c.resolved = true ∧ Scanned mc p c := by
  have hagree := decodePa_agree hmc hpop p
  have hvalid := (agree_of_shape hmc hpop).decode_valid p
  have hchannel : (shimCflDecodePa (shimMc mc) p).channel = cflSklDecodeChannel p mc :=
    hagree.channel
  have hrank : (shimCflDecodePa (shimMc mc) p).rank =
      (cflSklDecodeRank p (cflSklDecodeChannel p mc) mc).rank := hagree.rank
  unfold scannedPages chipMatches Scanned
  rw [List.mem_filter, mem_pages zero_aligned (shimTotal_aligned hmc hpop), hvalid, hchannel,
    hrank, Bool.true_and, List.any_eq_true]
  simp only [Bool.and_eq_true, beq_iff_eq, and_assoc]
  constructor
  · intro h
    exact ⟨h.2.2.1, h.2.1, h.2.2.2⟩
  · intro h
    exact ⟨UInt64.zero_le, h.2.1, h.1, h.2.2⟩

end

section
variable {σ : Type}

/-- What is compatible with a chip, and what the walk tries, in terms of the registers. -/
theorem compatible_page_iff {host : ShimHost} (hhost : host.accessible = true)
    (hdimm : host.regs.HasDimm) (chips : List BadmemChip) {p : UInt64} (hp : 4096 ∣ p.toNat) :
    (∃ a, pageAlign a = p ∧ ∃ c ∈ chips, c.resolved = true ∧
        Compatible (shimCflDecodePa (shimCflInit host) a) c) ↔
      ∃ c ∈ chips, c.resolved = true ∧ Reaches (readConfig host.regs) p c := by
  have hmc := readConfig_shape host.regs
  have hpop := (hasDimm_iff host.regs).mp hdimm
  rw [shimCflInit_of_accessible hhost]
  constructor
  · intro h
    obtain ⟨a, ha, c, hc, hres, hcompat⟩ := h
    exact ⟨c, hc, hres, (reaches_iff hmc hpop hp c).mp ⟨a, ha, hcompat⟩⟩
  · intro h
    obtain ⟨c, hc, hres, hr⟩ := h
    obtain ⟨a, ha, hcompat⟩ := (reaches_iff hmc hpop hp c).mpr hr
    exact ⟨a, ha, c, hc, hres, hcompat⟩

theorem tried_page_iff (fw : Firmware σ) {host : ShimHost} (hhost : host.accessible = true)
    (hdimm : host.regs.HasDimm) {chips : List BadmemChip} {s : Session σ}
    (hsuccess : (maskChips fw host chips s).1 = efiSuccess) {p : UInt64} (hp : 4096 ∣ p.toNat)
    (hlt : p < shimCflTotalMemory (shimCflInit host)) :
    p ∈ (attempts (maskChips fw host chips s).2.trace).drop (attempts s.trace).length ↔
      ∃ c ∈ chips, c.resolved = true ∧ Scanned (readConfig host.regs) p c := by
  have hmc := readConfig_shape host.regs
  have hpop := (hasDimm_iff host.regs).mp hdimm
  rw [maskChips_attempts fw host chips s hsuccess, List.drop_left]
  rw [shimCflInit_of_accessible hhost] at hlt ⊢
  rw [mem_scannedPages_iff hmc hpop]
  exact and_iff_right ⟨hp, hlt⟩

theorem init_valid {host : ShimHost} (hhost : host.accessible = true)
    (hdimm : host.regs.HasDimm) : (shimCflInit host).valid = true := by
  have hpop := (hasDimm_iff host.regs).mp hdimm
  rw [shimCflInit_of_accessible hhost]
  simp [shimMc, hpop]

theorem chipsComplete_of_scanned (fw : Firmware σ) {host : ShimHost} {chips : List BadmemChip}
    (s : Session σ) (hhost : host.accessible = true) (hdimm : host.regs.HasDimm)
    (h : ∀ p : UInt64, 4096 ∣ p.toNat → p < shimCflTotalMemory (shimCflInit host) →
      (∃ c ∈ chips, c.resolved = true ∧ Reaches (readConfig host.regs) p c) →
      ∃ c ∈ chips, c.resolved = true ∧ Scanned (readConfig host.regs) p c) :
    ChipsComplete fw host chips s := by
  intro hsuccess p hp hlt hex
  exact (tried_page_iff fw hhost hdimm hsuccess hp hlt).mpr
    (h p hp hlt ((compatible_page_iff hhost hdimm chips hp).mp hex))

/-- No offset bit takes part in the channel or in a rank, and every rank is known. -/
structure PageLevel (mc : McConfig) : Prop where
  channel : hashBits mc = 0
  rank : ∀ k, rankMode mc k = .single ∨ ∃ n, rankMode mc k = .addressBit n ∧ 12 ≤ n.toNat

theorem scanned_of_reaches {mc : McConfig} (h : PageLevel mc) {p : UInt64} {c : BadmemChip}
    (hr : Reaches mc p c) : Scanned mc p c := by
  have hchannel (hreach : ChannelReaches mc p c.channel) :
      c.channel = cflSklDecodeChannel p mc := by
    rcases hreach with heq | ⟨hne, -⟩
    · exact heq
    · exact absurd h.channel hne
  unfold Reaches at hr
  rcases h.rank c.channel with hmode | ⟨n, hmode, hn⟩
  · rw [hmode] at hr
    have hch := hchannel hr.2
    refine ⟨hch, ?_⟩
    rw [← hch, decodeRank_eq_mode, hmode, hr.1]
  · rw [hmode] at hr
    simp only [if_neg (Nat.not_lt.mpr hn)] at hr
    have hch := hchannel hr.2
    refine ⟨hch, ?_⟩
    rw [← hch, decodeRank_eq_mode, hmode, hr.1]

/-- Page-level registers make the walk complete for every list of chips. -/
theorem chipsComplete_of_pageLevel (fw : Firmware σ) {host : ShimHost}
    (chips : List BadmemChip) (s : Session σ) (hhost : host.accessible = true)
    (hdimm : host.regs.HasDimm) (h : PageLevel (readConfig host.regs)) :
    ChipsComplete fw host chips s := by
  apply chipsComplete_of_scanned fw s hhost hdimm
  intro p _ _ hr
  obtain ⟨c, hc, hres, hreach⟩ := hr
  exact ⟨c, hc, hres, scanned_of_reaches h hreach⟩

/-- The walk is complete exactly when every reached page has a matching base. -/
theorem chipsComplete_iff (fw : Firmware σ) (host : ShimHost) (chips : List BadmemChip)
    (s : Session σ) (hhost : host.accessible = true) (hdimm : host.regs.HasDimm) :
    ChipsComplete fw host chips s ↔
      ∀ p : UInt64, 4096 ∣ p.toNat → p < shimCflTotalMemory (shimCflInit host) →
        (∃ c ∈ chips, c.resolved = true ∧ Reaches (readConfig host.regs) p c) →
        ∃ c ∈ chips, c.resolved = true ∧ Scanned (readConfig host.regs) p c := by
  constructor
  · intro h p hp hlt hr
    rcases maskChips_status fw (init_valid hhost hdimm) chips s with hsuccess | hzero
    · exact (tried_page_iff fw hhost hdimm hsuccess hp hlt).mp
        (h hsuccess p hp hlt ((compatible_page_iff hhost hdimm chips hp).mpr hr))
    · rw [hzero] at hlt
      exact absurd hlt UInt64.not_lt_zero
  · intro h
    exact chipsComplete_of_scanned fw s hhost hdimm h

end

/-- Two channels told apart by bit 12, the first with two ranks told apart by bit 16. -/
def pagewiseHost : ShimHost := ⟨0x906ea, 0xfed10001, 0, ⟨0x110, 0, 0x510, 0x410, 0x1001⟩⟩

theorem pagewiseHost_pageLevel : PageLevel (readConfig pagewiseHost.regs) := by
  refine ⟨by decide, fun k => ?_⟩
  unfold rankMode McConfig.channel
  by_cases hk : k = 0
  · rw [if_pos hk, if_pos hk]
    exact Or.inr ⟨16, by decide, by decide⟩
  · rw [if_neg hk, if_neg hk]
    exact Or.inl (if_pos (by decide))

theorem chipsComplete_pagewise :
    ChipsComplete uefi pagewiseHost
      [⟨ascii "U2410", 0, 1, 0, true⟩, ⟨ascii "U2520", 1, 0, 2, true⟩]
      (.start (fun _ => some .conventionalMemory) [] []) := by
  apply (chipsComplete_iff uefi pagewiseHost _ _ (by decide) (by decide)).mpr
  intro p _ _ h
  obtain ⟨c, hc, hres, hr⟩ := h
  exact ⟨c, hc, hres, scanned_of_reaches pagewiseHost_pageLevel hr⟩

/-- Two channels told apart by bit 6: the walk sees channel 0 only. -/
def interleavedHost : ShimHost := ⟨0x906ea, 0xfed10001, 0, ⟨0, 0, 0x410, 0x410, 0⟩⟩

theorem chip_on_channel_one_missed :
    ¬ChipsComplete uefi interleavedHost [⟨ascii "U2520", 1, 0, 0, true⟩]
      (.start (fun _ => none) [] []) := by
  intro h
  have hvalid : (shimCflInit interleavedHost).valid = true := by decide
  have htotal : shimCflTotalMemory (shimCflInit interleavedHost) ≠ 0 := by decide
  rcases maskChips_status uefi hvalid [⟨ascii "U2520", 1, 0, 0, true⟩]
    (.start (fun _ => none) [] []) with hsuccess | hzero
  · have hcompat : Compatible (shimCflDecodePa (shimCflInit interleavedHost) 0x40)
        ⟨ascii "U2520", 1, 0, 0, true⟩ := by
      refine ⟨by decide, by decide, fun _ => by decide⟩
    have hmem := h hsuccess 0 zero_aligned (by decide)
      ⟨0x40, by decide, _, List.mem_singleton_self _, rfl, hcompat⟩
    rw [tried_page_iff uefi (by decide) (by decide) hsuccess zero_aligned (by decide)] at hmem
    obtain ⟨c, hc, -, hscanned⟩ := hmem
    rw [List.mem_singleton.mp hc] at hscanned
    exact absurd hscanned.1 (by decide)
  · exact htotal hzero

end BankFinder.ChipMask
