import BankFinder.CflSkl

/-!
# The memory controller as mask-shim decodes it

`cfl_decode_shim.c` is a second decoder over the same registers, written for the
boot environment: its own probe, its own search for the first DIMM, and another
fallback for rows of unknown width.
-/

namespace BankFinder.ShimDecoder
open BitLoops CflSkl

structure ShimDimm where
  populated : Bool := false
  ranks : UInt8 := 0
  width : UInt8 := 0
  sizeMb : UInt32 := 0
  deriving DecidableEq, Repr

structure ShimChannel where
  populated : Bool := false
  dimm0 : ShimDimm := {}
  dimm1 : ShimDimm := {}
  deriving DecidableEq, Repr

structure ShimMc where
  valid : Bool := false
  channelsPopulated : UInt8 := 0
  chanHash : UInt32 := 0
  madIntraCh0 : UInt32 := 0
  madIntraCh1 : UInt32 := 0
  channel0 : ShimChannel := {}
  channel1 : ShimChannel := {}
  deriving DecidableEq, Repr

structure ShimHost where
  cpuidEax : UInt32
  mchbarLo : UInt32
  mchbarHi : UInt32
  regs : ImcRegisters
  deriving DecidableEq, Repr

structure ShimPaDecoded where
  valid : Bool := false
  channel : UInt8 := 0
  rank : UInt8 := 0
  rankValid : Bool := false
  bankGroup : UInt8 := 0
  bank : UInt8 := 0
  row : UInt32 := 0
  bankRowValid : Bool := false
  deriving DecidableEq, Repr

def cpuIsCfl (host : ShimHost) : Bool :=
  let eax := host.cpuidEax
  let family := (eax >>> 8) &&& 0xf
  let lowModel := (eax >>> 4) &&& 0xf
  let extendedModel := (eax >>> 16) &&& 0xf
  let model := lowModel ||| (extendedModel <<< 4)
  family == 6 && (model == 0x8E || model == 0x9E)

def mchbarBase (host : ShimHost) : UInt64 :=
  ((host.mchbarHi.toUInt64 <<< 32) ||| host.mchbarLo.toUInt64) &&& 0x7FFFFF8000

def decodeMadDimm (raw : UInt32) : ShimChannel :=
  let sizeA := (raw >>> 0) &&& 0x3F
  let sizeB := (raw >>> 16) &&& 0x3F
  let rnkA := (raw >>> 8) &&& 0x3
  let rnkB := (raw >>> 12) &&& 0x3
  let dimm0 : ShimDimm :=
    { populated := sizeA > 0
      sizeMb := sizeA * 1024
      ranks := ((1 : UInt32) <<< rnkA).toUInt8
      width := if raw &&& ((1 : UInt32) <<< 10) ≠ 0 then 16 else 8 }
  let dimm1 : ShimDimm :=
    { populated := sizeB > 0
      sizeMb := sizeB * 1024
      ranks := ((1 : UInt32) <<< rnkB).toUInt8
      width := if raw &&& ((1 : UInt32) <<< 11) ≠ 0 then 16 else 8 }
  { populated := dimm0.populated || dimm1.populated, dimm0 := dimm0, dimm1 := dimm1 }

def readRegisters (regs : ImcRegisters) : ShimMc :=
  let channel0 := decodeMadDimm regs.madDimmCh0
  let channel1 := decodeMadDimm regs.madDimmCh1
  let channelsPopulated := channel0.populated.toNat.toUInt8 + channel1.populated.toNat.toUInt8
  { valid := channelsPopulated > 0
    channelsPopulated := channelsPopulated
    chanHash := regs.channelHash
    madIntraCh0 := regs.madIntraCh0
    madIntraCh1 := regs.madIntraCh1
    channel0 := channel0
    channel1 := channel1 }

def ShimHost.accessible (host : ShimHost) : Bool :=
  cpuIsCfl host && host.mchbarLo &&& 1 != 0 && mchbarBase host != 0

/-- `g_mc` after `shim_cfl_init`, which returns its `valid` field. -/
def shimCflInit (host : ShimHost) : ShimMc :=
  if !cpuIsCfl host then {}
  else if host.mchbarLo &&& 1 = 0 then {}
  else if mchbarBase host = 0 then {}
  else readRegisters host.regs

def ShimMc.channel (mc : ShimMc) (ch : UInt8) : ShimChannel :=
  if ch = 0 then mc.channel0 else mc.channel1

def ShimChannel.dimms (ch : ShimChannel) : List ShimDimm := [ch.dimm0, ch.dimm1]

def ShimMc.channels (mc : ShimMc) : List ShimChannel := [mc.channel0, mc.channel1]

def decodeChannel (mc : ShimMc) (pa : UInt64) : UInt8 :=
  if mc.channelsPopulated = 1 then if mc.channel0.populated then 0 else 1
  else if mc.chanHash &&& 0x1 = 0 then ((pa >>> 6) &&& 0x1).toUInt8
  else
    let mask := ((mc.chanHash >>> 6) &&& 0x3FFF).toUInt64
    let bits := (pa >>> 6) &&& mask
    parityLoop 64 bits 0

def channelMaxRanks (ch : ShimChannel) : UInt8 :=
  ch.dimms.foldl (fun m d => if !d.populated then m else if d.ranks > m then d.ranks else m) 0

/-- The rank and `*out_valid`. -/
def decodeRank (mc : ShimMc) (pa : UInt64) (ch : UInt8) : UInt8 × Bool :=
  let maxRanks := channelMaxRanks (mc.channel ch)
  if maxRanks ≤ 1 then (0, true)
  else
    let intra := if ch = 0 then mc.madIntraCh0 else mc.madIntraCh1
    if intra &&& ((1 : UInt32) <<< 8) = 0 then (0, false)
    else
      let rankBit := intra &&& 0x1F
      if rankBit < 6 ∨ rankBit > 40 then (0, false)
      else (((pa >>> rankBit.toUInt64) &&& 0x1).toUInt8, true)

def shimBit (pa n : UInt64) : UInt32 := ((pa >>> n) &&& 1).toUInt32

/-- `size_mb`, `ranks` and `width` of `shim_row_bits`. -/
structure Geometry where
  sizeMb : UInt32 := 0
  ranks : UInt32 := 1
  width : UInt32 := 8
  deriving DecidableEq, Repr

/-- The inner loop, guarded by `size_mb == 0`. -/
def scanDimm (g : Geometry) (d : ShimDimm) : Geometry :=
  if g.sizeMb ≠ 0 ∨ !d.populated then g
  else ⟨d.sizeMb, d.ranks.toUInt32, d.width.toUInt32⟩

def scanChannel (g : Geometry) (ch : ShimChannel) : Geometry :=
  if g.sizeMb ≠ 0 ∨ !ch.populated then g else ch.dimms.foldl scanDimm g

def ShimMc.geometry (mc : ShimMc) : Geometry := mc.channels.foldl scanChannel {}

def Geometry.chipsPerRank (g : Geometry) : UInt32 := if g.width = 0 then 8 else 64 / g.width
def Geometry.bytesPerRow (g : Geometry) : UInt64 := 1024 * (g.width.toUInt64 / 8)

/-- The divisors of the geometry chain. -/
def Geometry.divisors (g : Geometry) : List UInt64 :=
  [g.width.toUInt64, g.chipsPerRank.toUInt64 * g.ranks.toUInt64, g.bytesPerRow]

def Geometry.rowsPerBank (g : Geometry) : UInt64 :=
  let dimmBytes := g.sizeMb.toUInt64 * 1024 * 1024
  let chipBytes := dimmBytes / (g.chipsPerRank.toUInt64 * g.ranks.toUInt64)
  chipBytes / g.bytesPerRow / 16

def shimRowBits (mc : ShimMc) : UInt32 :=
  if !mc.valid then 0
  else
    let g := mc.geometry
    if g.sizeMb = 0 ∨ g.ranks = 0 ∨ g.width = 0 then 0
    else if g.chipsPerRank = 0 then 0
    else if g.bytesPerRow = 0 then 0
    else if g.rowsPerBank = 0 then 0
    else log2Loop 64 g.rowsPerBank 0

def shimDecodeBankRow (mc : ShimMc) (pa : UInt64) (d : ShimPaDecoded) : ShimPaDecoded :=
  let rb := shimRowBits mc
  { d with
    bankGroup := ((shimBit pa 7 ^^^ shimBit pa 14) |||
      ((shimBit pa 8 ^^^ shimBit pa 9 ^^^ shimBit pa 12 ^^^ shimBit pa 13 ^^^ shimBit pa 18 ^^^
        shimBit pa 19) <<< 1)).toUInt8
    bank := ((shimBit pa 15 ^^^ shimBit pa 18) |||
      ((shimBit pa 16 ^^^ shimBit pa 19) <<< 1)).toUInt8
    row := if rb > 0 ∧ rb ≤ 20 then
        ((pa >>> 18) &&& (((1 : UInt64) <<< rb.toUInt64) - 1)).toUInt32
      else ((pa >>> 18) &&& 0x1FFFF).toUInt32
    bankRowValid := true }

def shimCflDecodePa (mc : ShimMc) (pa : UInt64) : ShimPaDecoded :=
  if !mc.valid then {}
  else
    let channel := decodeChannel mc pa
    let r := decodeRank mc pa channel
    shimDecodeBankRow mc pa
      { valid := true, channel := channel, rank := r.1, rankValid := r.2 }

def shimCflTotalMemory (mc : ShimMc) : UInt64 :=
  if !mc.valid then 0
  else mc.channels.foldl (fun total ch =>
    if !ch.populated then total
    else ch.dimms.foldl (fun total d =>
      if !d.populated then total else total + d.sizeMb.toUInt64 * 1024 * 1024) total) 0

end BankFinder.ShimDecoder
