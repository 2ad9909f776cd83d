import BankFinder.Nvram

/-!
# Board profiles

The overlay which names the memory packages of a board, its two lookups, and the
table generated from the topology file of the one board which has been traced.
Texts are C strings: byte lists without their terminating NUL.
-/

namespace BankFinder.BoardTopology
open Nvram

structure BoardPackage where
  designator : List UInt8
  channel : UInt8
  rank : UInt8
  byteLane : UInt8
  chipWidth : UInt8
  deriving DecidableEq, Repr

structure BoardProfile where
  products : List (List UInt8)
  packages : List BoardPackage
  deriving DecidableEq, Repr

def boardMaxPackages : ℕ := 16

def productMatches (p : BoardProfile) (product : List UInt8) : Bool :=
  p.products.any fun needle => asciiEq product needle

/-- `smbios_board_id` may have nothing to report. -/
def boardDetect (profiles : List BoardProfile) (product : Option (List UInt8)) :
    Option BoardProfile :=
  product.bind fun product => profiles.find? fun p => productMatches p product

def BoardPackage.serves (pk : BoardPackage) (channel rank byteLane : UInt8) : Bool :=
  let laneHi := pk.byteLane + (if pk.chipWidth = 16 then 1 else 0)
  pk.channel == channel && pk.rank == rank && pk.byteLane ≤ byteLane && byteLane ≤ laneHi

def boardLookup (p : BoardProfile) (channel rank byteLane : UInt8) : Option BoardPackage :=
  p.packages.find? fun pk => pk.serves channel rank byteLane

/-- One row of `topology/820-01814-a.yaml`: every chip is 8 bits wide and of rank 0. -/
def package (designator : String) (channel byteLane : UInt8) : BoardPackage :=
  ⟨ascii designator, channel, 0, byteLane, 8⟩

def profile82001814a : BoardProfile where
  products := [ascii "MacBookPro15,1", ascii "MacBookPro15,3"]
  packages :=
    [package "U2410" 0 0, package "U2420" 0 1, package "U2430" 0 2, package "U2400" 0 3,
      package "U2330" 0 4, package "U2300" 0 5, package "U2310" 0 6, package "U2320" 0 7,
      package "U2520" 1 0, package "U2510" 1 1, package "U2500" 1 2, package "U2530" 1 3,
      package "U2600" 1 4, package "U2630" 1 5, package "U2620" 1 6, package "U2610" 1 7]

def boardProfiles : List BoardProfile := [profile82001814a]

end BankFinder.BoardTopology
