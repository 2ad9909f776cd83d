import BankFinder.BitLoops

/-!
# The memory controller as memtest decodes it

`cfl_skl_kbl.c` reads the interleave registers of a Skylake, Kaby Lake or Coffee
Lake host bridge and maps a physical address to channel, rank, bank group, bank
and row. The `unsigned` helpers are 32-bit, addresses are 64-bit.
-/

namespace BankFinder.CflSkl
open BitLoops

/-- The registers behind `MCHBAR` on which decoding depends. -/
structure ImcRegisters where
  madIntraCh0 : UInt32
  madIntraCh1 : UInt32
  madDimmCh0 : UInt32
  madDimmCh1 : UInt32
  channelHash : UInt32
  deriving DecidableEq, Repr

/-- Some DIMM slot of some channel has a size. -/
def ImcRegisters.HasDimm (regs : ImcRegisters) : Prop :=
  ∃ raw ∈ [regs.madDimmCh0, regs.madDimmCh1], raw &&& 0x3F ≠ 0 ∨ (raw >>> 16) &&& 0x3F ≠ 0

instance (regs : ImcRegisters) : Decidable regs.HasDimm :=
  inferInstanceAs (Decidable (∃ raw ∈ _, _))

structure McDimm where
  populated : Bool
  ranks : UInt8
  width : UInt8
  sizeMb : UInt32
  deriving DecidableEq, Repr

structure McChannel where
  populated : Bool
  dimm0 : McDimm
  dimm1 : McDimm
  deriving DecidableEq, Repr

structure McConfig where
  channelsPopulated : UInt8
  channel0 : McChannel
  channel1 : McChannel
  chanHash : UInt32
  madIntraCh0 : UInt32
  madIntraCh1 : UInt32
  deriving DecidableEq, Repr

/-- What the probe reads from the machine; `mchbarLoRetry` is the low half of the
base as read again after the enable bit was written. -/
structure McHost where
  vendorInitial : UInt8
  family : UInt32
  model : UInt32
  extendedModel : UInt32
  mchbarLo : UInt32
  mchbarLoRetry : UInt32
  mchbarHi : UInt32
  mapped : Bool
  regs : ImcRegisters
  deriving DecidableEq, Repr

structure PaDecoded where
  valid : Bool := false
  channel : UInt8 := 0
  rank : UInt8 := 0
  rankValid : Bool := false
  rankSpeculative : Bool := false
  bankGroup : UInt8 := 0
  bank : UInt8 := 0
  row : UInt32 := 0
  col : UInt16 := 0
  bankRowValid : Bool := false
  bankRowSpeculative : Bool := false
  deriving DecidableEq, Repr

def cflSklDetect (host : McHost) : Bool :=
  if host.vendorInitial ≠ 0x47 then false
  else if host.family ≠ 6 then false
  else
    let model := host.model ||| (host.extendedModel <<< 4)
    model == 0x8E || model == 0x9E

/-- `read_mchbar_base`, with 0 for a disabled window. -/
def readMchbarBase (host : McHost) : UInt64 :=
  let lo := if host.mchbarLo &&& 1 = 0 then host.mchbarLoRetry else host.mchbarLo
  if lo &&& 1 = 0 then 0
  else ((host.mchbarHi.toUInt64 <<< 32) ||| lo.toUInt64) &&& 0x7FFFFF8000

def decodeMadDimm (raw : UInt32) : McChannel :=
  let sizeA := (raw >>> 0) &&& 0x3F
  let sizeB := (raw >>> 16) &&& 0x3F
  let rnkA := (raw >>> 8) &&& 0x3
  let rnkB := (raw >>> 12) &&& 0x3
  let dimm0 : McDimm :=
    { populated := sizeA > 0
      sizeMb := sizeA * 1024
      ranks := ((1 : UInt32) <<< rnkA).toUInt8
      width := if raw &&& ((1 : UInt32) <<< 10) ≠ 0 then 16 else 8 }
  let dimm1 : McDimm :=
    { populated := sizeB > 0
      sizeMb := sizeB * 1024
      ranks := ((1 : UInt32) <<< rnkB).toUInt8
      width := if raw &&& ((1 : UInt32) <<< 11) ≠ 0 then 16 else 8 }
  { populated := dimm0.populated || dimm1.populated, dimm0 := dimm0, dimm1 := dimm1 }

def readConfig (regs : ImcRegisters) : McConfig :=
  let channel0 := decodeMadDimm regs.madDimmCh0
  let channel1 := decodeMadDimm regs.madDimmCh1
  { channelsPopulated := channel0.populated.toNat.toUInt8 + channel1.populated.toNat.toUInt8
    channel0 := channel0
    channel1 := channel1
    chanHash := regs.channelHash
    madIntraCh0 := regs.madIntraCh0
    madIntraCh1 := regs.madIntraCh1 }

/-- The probe succeeds up to the registers: family, window and mapping. -/
def McHost.accessible (host : McHost) : Bool :=
  cflSklDetect host && readMchbarBase host != 0 && host.mapped

/-- The cached configuration; `none` is the NULL of an invalid one. -/
def cflSklConfig (host : McHost) : Option McConfig :=
  if !cflSklDetect host then none
  else if readMchbarBase host = 0 then none
  else if !host.mapped then none
  else
    let mc := readConfig host.regs
    if mc.channelsPopulated > 0 then some mc else none

def McConfig.channel (mc : McConfig) (ch : UInt8) : McChannel :=
  if ch = 0 then mc.channel0 else mc.channel1

def McChannel.dimms (ch : McChannel) : List McDimm := [ch.dimm0, ch.dimm1]

def McConfig.channels (mc : McConfig) : List McChannel := [mc.channel0, mc.channel1]

def cflSklDecodeChannel (pa : UInt64) (mc : McConfig) : UInt8 :=
  if mc.channelsPopulated = 1 then if mc.channel0.populated then 0 else 1
  else if mc.chanHash &&& 0x1 = 0 then ((pa >>> 6) &&& 0x1).toUInt8
  else
    let mask := ((mc.chanHash >>> 6) &&& 0x3FFF).toUInt64
    let bits := (pa >>> 6) &&& mask
    parityLoop 64 bits 0

def channelMaxRanks (ch : McChannel) : UInt8 :=
  ch.dimms.foldl (fun m d => if !d.populated then m else if d.ranks > m then d.ranks else m) 0

structure RankDecode where
  rank : UInt8
  valid : Bool
  speculative : Bool
  deriving DecidableEq, Repr

def cflSklDecodeRank (pa : UInt64) (ch : UInt8) (mc : McConfig) : RankDecode :=
  let maxRanks := channelMaxRanks (mc.channel ch)
  if maxRanks ≤ 1 then ⟨0, true, false⟩
  else
    let intra := if ch = 0 then mc.madIntraCh0 else mc.madIntraCh1
    if intra &&& ((1 : UInt32) <<< 8) = 0 then ⟨0, false, false⟩
    else
      let rankBit := intra &&& 0x1F
      if rankBit < 6 ∨ rankBit > 40 then ⟨0, false, false⟩
      else ⟨((pa >>> rankBit.toUInt64) &&& 0x1).toUInt8, true, true⟩

def bit (pa n : UInt64) : UInt32 := ((pa >>> n) &&& 1).toUInt32

/-- The first populated DIMM over all channels. -/
def McConfig.firstDimm (mc : McConfig) : Option McDimm :=
  (mc.channels.flatMap McChannel.dimms).find? McDimm.populated

def McDimm.chipsPerRank (dd : McDimm) : UInt32 := 64 / dd.width.toUInt32
def McDimm.bytesPerRow (dd : McDimm) : UInt32 := 1024 * (dd.width.toUInt32 / 8)

/-- The three divisors of the geometry chain. -/
def McDimm.divisors (dd : McDimm) : List UInt64 :=
  [dd.width.toUInt64, dd.chipsPerRank.toUInt64 * dd.ranks.toUInt64, dd.bytesPerRow.toUInt64]

def McDimm.rowsPerBank (dd : McDimm) : UInt64 :=
  let dimmBytes := dd.sizeMb.toUInt64 * 1024 * 1024
  let chipBytes := dimmBytes / (dd.chipsPerRank.toUInt64 * dd.ranks.toUInt64)
  let totalRows := chipBytes / dd.bytesPerRow.toUInt64
  totalRows / 16

def cflSklRowBits (config : Option McConfig) : UInt32 :=
  match config.bind McConfig.firstDimm with
  | none => 0
  | some dd => if dd.rowsPerBank = 0 then 0 else log2Loop 64 dd.rowsPerBank 0

def cflSklDecodeBankRowCol (pa : UInt64) (d : PaDecoded) (rowBitCount : UInt32) : PaDecoded :=
  { d with
    bankGroup := ((bit pa 7 ^^^ bit pa 14) |||
      ((bit pa 8 ^^^ bit pa 9 ^^^ bit pa 12 ^^^ bit pa 13 ^^^ bit pa 18 ^^^ bit pa 19) <<<
        1)).toUInt8
    bank := ((bit pa 15 ^^^ bit pa 18) ||| ((bit pa 16 ^^^ bit pa 19) <<< 1)).toUInt8
    col := ((pa >>> 6) &&& 0x3FF).toUInt16
    row := if rowBitCount > 0 ∧ rowBitCount ≤ 20 then
      ((pa >>> 18) &&& (((1 : UInt64) <<< rowBitCount.toUInt64) - 1)).toUInt32 else d.row
    bankRowValid := true
    bankRowSpeculative := true }

def cflSklTotalMemory (config : Option McConfig) : UInt64 :=
  match config with
  | none => 0
  | some mc => mc.channels.foldl (fun total ch =>
      if !ch.populated then total
      else ch.dimms.foldl (fun total d =>
        if !d.populated then total else total + d.sizeMb.toUInt64 * 1024 * 1024) total) 0

def cflSklDecodePa (config : Option McConfig) (pa : UInt64) : PaDecoded :=
  match config with
  | none => {}
  | some mc =>
      let channel := cflSklDecodeChannel pa mc
      let r := cflSklDecodeRank pa channel mc
      let d : PaDecoded :=
        { valid := true
          channel := channel
          rank := r.rank
          rankValid := r.valid
          rankSpeculative := r.speculative }
      cflSklDecodeBankRowCol pa d (cflSklRowBits config)

/-- `imc_decode_pa`, which asks the family table first. -/
def imcDecodePa (host : McHost) (pa : UInt64) : PaDecoded :=
  if cflSklDetect host then cflSklDecodePa (cflSklConfig host) pa else {}

/-- `imc_config` -/
def imcConfig (host : McHost) : Option McConfig :=
  if cflSklDetect host then cflSklConfig host else none

theorem imcDecodePa_eq (host : McHost) (pa : UInt64) :
    imcDecodePa host pa = cflSklDecodePa (imcConfig host) pa := by
  unfold imcDecodePa imcConfig
  split_ifs <;> rfl

end BankFinder.CflSkl
