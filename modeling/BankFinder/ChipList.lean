import BankFinder.BadmemParse

/-!
# The saved list of bad chips

`BrrBadChips` is a text of comma-separated designators. `read_nvram_badchips`
cuts it at commas, skips blanks in front of an entry but not behind it, and cuts
an entry which does not fit into the designator field into several.
-/

namespace BankFinder.ChipList
open Nvram BootSession BadmemParse

def brrVarnameBadchips : String := "BrrBadChips"
def legacyVarnameBadchips : String := "A1990BadChips"

def chipBufSize : ℕ := 256

def isSeparator (c : UInt8) : Bool := c == 0x2C || c == 0x20

/-- The entries of a text, at most `room` of them. -/
def splitDesignators : ℕ → ℕ → List UInt8 → List (List UInt8)
  | 0, _, _ => []
  | fuel + 1, room, p =>
      if p.isEmpty ∨ room = 0 then []
      else
        let p := p.dropWhile isSeparator
        if p.isEmpty then []
        else
          let d := (p.takeWhile (· ≠ comma)).take (badmemDesigMax - 1)
          if d.isEmpty then splitDesignators fuel room (p.drop d.length)
          else d :: splitDesignators fuel (room - 1) (p.drop d.length)

/-- The text under the current name, else under the legacy name. -/
def readBadchipsVariable (store : Store) : Option (List UInt8) :=
  let r := maskNvramGetAscii store brrVarnameBadchips chipBufSize
  if r.1 = efiSuccess then some r.2 else
    let l := maskNvramGetAscii store legacyVarnameBadchips chipBufSize
    if l.1 = efiSuccess then some l.2 else none

/-- The designators which `read_nvram_badchips` finds. -/
def badchipDesignators (store : Store) (cap : ℕ) : List (List UInt8) :=
  match readBadchipsVariable store with
  | none => []
  | some text => splitDesignators (text.length + 1) cap text

def readNvramBadchips (store : Store) (cap : ℕ) : List BadmemChip :=
  (badchipDesignators store cap).map unresolvedChip

/-- A text which does not begin with a separator yields a first entry. -/
theorem entry_ne_nil {p : List UInt8} (h : p.dropWhile isSeparator ≠ []) :
    (((p.dropWhile isSeparator).takeWhile (· ≠ comma)).take (badmemDesigMax - 1)) ≠ [] := by
  have hhead := List.head_dropWhile_not isSeparator h
  cases hp : p.dropWhile isSeparator with
  | nil => exact absurd hp h
  | cons c rest =>
      have hc : c ≠ comma := by
        intro heq
        simp only [hp, List.head_cons] at hhead
        rw [heq] at hhead
        exact absurd hhead (by decide)
      rw [List.takeWhile_cons_of_pos (by simpa using hc)]
      exact List.cons_ne_nil _ _

/-- The loop has ended by its own test: more turns change nothing. -/
theorem splitDesignators_ended {fuel : ℕ} {p : List UInt8} (h : p.length < fuel) (more room : ℕ) :
    splitDesignators (fuel + more) room p = splitDesignators fuel room p := by
  induction fuel generalizing p room with
  | zero => exact absurd h (Nat.not_lt_zero _)
  | succ fuel ih =>
      rw [Nat.succ_add]
      unfold splitDesignators
      by_cases hend : p.isEmpty ∨ room = 0
      · rw [if_pos hend, if_pos hend]
      · rw [if_neg hend, if_neg hend]
        simp only
        by_cases hrest : p.dropWhile isSeparator = []
        · rw [hrest]
          rfl
        · have hentry := List.length_pos_iff.mpr (entry_ne_nil hrest)
          have hne := entry_ne_nil hrest
          have hdrop := (List.dropWhile_suffix (l := p) isSeparator).length_le
          have hpos := List.length_pos_iff.mpr hrest
          simp only [List.isEmpty_iff, if_neg hrest, if_neg hne]
          rw [ih (by rw [List.length_drop]; omega)]

end BankFinder.ChipList
