import BankFinder.Nvram

/-!
# Names of boot entries

A boot entry is a variable called `Boot` with the four hexadecimal digits of its slot.
The programs write the digits with `efi_fmt_hex`.
-/

namespace BankFinder.BootNames
open Nvram

def hexDigits : List Char := "0123456789abcdef".toList

/-- The digits of `v`, the lowest first; zero has none. -/
def hexLoop : ℕ → UInt64 → List Char
  | 0, _ => []
  | fuel + 1, v =>
      if v = 0 then [] else hexDigits.getD (v &&& 0xf).toNat '0' :: hexLoop fuel (v >>> 4)

def efiFmtHex (val : UInt64) (minDigits : ℕ) : List Char :=
  let tmp := if val = 0 then ['0'] else hexLoop 16 val
  (tmp ++ List.replicate (minDigits - tmp.length) '0').reverse

/-- `varname[]` for a slot: `Boot` and the first four digits of the buffer. -/
def bootVarName (slot : UInt16) : String :=
  String.ofList ("Boot".toList ++ (efiFmtHex slot.toUInt64 4).take 4)

def isHexDigit (c : Char) : Bool :=
  ('0' ≤ c && c ≤ '9') || ('A' ≤ c && c ≤ 'F') || ('a' ≤ c && c ≤ 'f')

/-- `Boot` and exactly four hexadecimal digits of either case. -/
def isBootEntry (name : String) : Bool :=
  name.toList.take 4 == "Boot".toList && name.toList.length == 8 &&
    (name.toList.drop 4).all isHexDigit

example : bootVarName 0x1ab = "Boot01ab" := by decide

theorem hexDigits_getD {i : ℕ} (h : i < 16) : isHexDigit (hexDigits.getD i '0') = true := by
  have hall : ∀ i < 16, isHexDigit (hexDigits.getD i '0') = true := by decide
  exact hall i h

theorem hexLoop_all (fuel : ℕ) (v : UInt64) : (hexLoop fuel v).all isHexDigit = true := by
  induction fuel generalizing v with
  | zero => rfl
  | succ fuel ih =>
      unfold hexLoop
      split_ifs with hv
      · rfl
      · have hdigit : (v &&& 0xf).toNat < 16 := by
          rw [UInt64.toNat_and]
          exact lt_of_le_of_lt Nat.and_le_right (by decide)
        rw [List.all_cons, hexDigits_getD hdigit, ih, Bool.and_self]

theorem length_hexLoop_le {k : ℕ} (fuel : ℕ) {v : UInt64} (h : v.toNat < 16 ^ k) :
    (hexLoop fuel v).length ≤ k := by
  induction fuel generalizing v k with
  | zero => exact Nat.zero_le k
  | succ fuel ih =>
      unfold hexLoop
      split_ifs with hv
      · exact Nat.zero_le k
      · have hpos : v.toNat ≠ 0 := fun h0 => hv (UInt64.toNat_inj.mp h0)
        cases k with
        | zero => exact absurd h (by omega)
        | succ k =>
            have hshift : (v >>> 4).toNat < 16 ^ k := by
              rw [UInt64.toNat_shiftRight, Nat.shiftRight_eq_div_pow]
              rw [pow_succ, Nat.mul_comm] at h
              exact Nat.div_lt_of_lt_mul h
            rw [List.length_cons]
            exact Nat.succ_le_succ (ih hshift)

theorem efiFmtHex_all (val : UInt64) (minDigits : ℕ) :
    (efiFmtHex val minDigits).all isHexDigit = true := by
  have htmp : (if val = 0 then ['0'] else hexLoop 16 val).all isHexDigit = true := by
    split_ifs
    · rfl
    · exact hexLoop_all 16 val
  unfold efiFmtHex
  rw [List.all_reverse, List.all_append, htmp, Bool.true_and, List.all_eq_true]
  intro c hc
  rw [List.eq_of_mem_replicate hc]
  rfl

theorem length_efiFmtHex {val : UInt64} {k : ℕ} (hk : 0 < k) (h : val.toNat < 16 ^ k) :
    (efiFmtHex val k).length = k := by
  have htmp : (if val = 0 then ['0'] else hexLoop 16 val).length ≤ k := by
    split_ifs
    · exact hk
    · exact length_hexLoop_le 16 h
  unfold efiFmtHex
  rw [List.length_reverse, List.length_append, List.length_replicate]
  omega

theorem length_slotDigits (slot : UInt16) : (efiFmtHex slot.toUInt64 4).length = 4 := by
  have h := slot.toNat_lt
  exact length_efiFmtHex (by decide) (by rw [UInt16.toNat_toUInt64]; exact h)

/-- Every slot number gives a well-formed name. -/
theorem isBootEntry_bootVarName (slot : UInt16) : isBootEntry (bootVarName slot) = true := by
  have hlen := length_slotDigits slot
  unfold isBootEntry bootVarName
  rw [String.toList_ofList, List.take_of_length_le (i := 4) (le_of_eq hlen)]
  have htake : ("Boot".toList ++ efiFmtHex slot.toUInt64 4).take 4 = "Boot".toList := rfl
  have hdrop : ("Boot".toList ++ efiFmtHex slot.toUInt64 4).drop 4 = efiFmtHex slot.toUInt64 4 :=
    rfl
  rw [htake, hdrop, efiFmtHex_all, List.length_append, hlen]
  rfl

def bootOrderName : String := "BootOrder"

theorem isBootEntry_bootOrder : isBootEntry bootOrderName = false := by decide

theorem bootVarName_ne_bootOrder (slot : UInt16) : bootVarName slot ≠ bootOrderName := by
  intro h
  have hentry := isBootEntry_bootVarName slot
  rw [h, isBootEntry_bootOrder] at hentry
  exact Bool.false_ne_true hentry

end BankFinder.BootNames
