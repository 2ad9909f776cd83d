import BankFinder.BootSession

/-!
# Typing a list of addresses

`brr-entry` polls the keyboard, edits one line and takes the hexadecimal numbers in it
as addresses, each rounded down to its page. The number parser skips nothing but blanks
and digits, so a line with another character in it is never left.
-/

namespace BankFinder.AddressEntry
open BootSession

structure InputKey where
  scanCode : UInt16
  unicodeChar : UInt16
  deriving DecidableEq, Repr

/-- What a call of `ReadKeyStroke` delivers: nothing when no key is ready. -/
abbrev Poll := Option InputKey

/-- `efi_readkey`: the scan code is not looked at. -/
def efiReadkey : Poll → UInt16
  | none => 0
  | some key => key.unicodeChar

/-- `read_line` from the `n` characters in the buffer on; `none` as long as the line is not
submitted. ESC returns 0 characters. -/
def readLine (cap : ℕ) : List UInt16 → List Poll → Option (List UInt16 × List Poll)
  | _, [] => none
  | buf, none :: polls => readLine cap buf polls
  | buf, some key :: polls =>
      if key.scanCode = 0x17 then some ([], polls)
      else
        let c := key.unicodeChar
        if c = 0x0D ∨ c = 0x0A then some (buf, polls)
        else if c = 0x08 ∨ c = 0x7F then readLine cap buf.dropLast polls
        else if 0x20 ≤ c ∧ c < 0x7F ∧ buf.length + 1 < cap then readLine cap (buf ++ [c]) polls
        else readLine cap buf polls

def isHexDigit (c : UInt16) : Bool :=
  (0x30 ≤ c && c ≤ 0x39) || (0x61 ≤ c && c ≤ 0x66) || (0x41 ≤ c && c ≤ 0x46)

def hexValue (c : UInt16) : UInt64 :=
  if 0x30 ≤ c ∧ c ≤ 0x39 then (c - 0x30).toUInt64
  else if 0x61 ≤ c ∧ c ≤ 0x66 then (c - 0x61).toUInt64 + 10
  else if 0x41 ≤ c ∧ c ≤ 0x46 then (c - 0x41).toUInt64 + 10
  else 0

def isBlank (c : UInt16) : Bool := c == 0x20 || c == 0x09
def isSeparator (c : UInt16) : Bool := c == 0x20 || c == 0x09 || c == 0x2C

/-- The optional `0x`. -/
def skipHexPrefix (p : List UInt16) : List UInt16 :=
  if p.head? = some 0x30 ∧ (p.tail.head? = some 0x78 ∨ p.tail.head? = some 0x58) then p.drop 2
  else p

def hexDigits (v : UInt64) : List UInt16 → UInt64 × List UInt16
  | [] => (v, [])
  | c :: p => if isHexDigit c then hexDigits ((v <<< 4) ||| hexValue c) p else (v, c :: p)

/-- The value, and what follows the last digit. -/
def parseHex (p : List UInt16) : UInt64 × List UInt16 :=
  hexDigits 0 (skipHexPrefix (p.dropWhile isBlank))

/-- `out` are the `n` addresses found so far; `none` when the fuel does not suffice. -/
def parseLoop (cap : ℕ) : ℕ → List UInt64 → List UInt16 → Option (List UInt64)
  | 0, _, _ => none
  | fuel + 1, out, p =>
      if p = [] ∨ cap ≤ out.length then some out
      else
        let q := p.dropWhile isSeparator
        if q = [] then some out
        else
          let r := parseHex q
          let v := pageAlign r.1
          parseLoop cap fuel (if v ≠ 0 then out ++ [v] else out) r.2

/-- `parse_addresses` on a line without its NUL; `none` when it does not return. -/
def parseAddresses (line : List UInt16) (cap : ℕ) : Option (List UInt64) :=
  parseLoop cap (line.length + 1) [] line

theorem hexDigits_length (v : UInt64) (p : List UInt16) :
    (hexDigits v p).2.length ≤ p.length := by
  induction p generalizing v with
  | nil => exact le_rfl
  | cons c p ih =>
      unfold hexDigits
      split_ifs
      · exact (ih _).trans (Nat.le_succ _)
      · exact le_rfl

/-- A number which does not begin with a digit or a blank is empty, and the cursor stays. -/
theorem parseHex_progress {q : List UInt16} (hq : q.dropWhile isBlank = q) (hne : q ≠ []) :
    (parseHex q).2.length < q.length ∨ parseHex q = (0, q) := by
  unfold parseHex
  rw [hq]
  unfold skipHexPrefix
  split_ifs with hhex
  · have hdigits := hexDigits_length 0 (q.drop 2)
    have hpos := List.length_pos_of_ne_nil hne
    rw [List.length_drop] at hdigits
    exact Or.inl (by omega)
  · cases q with
    | nil => exact absurd rfl hne
    | cons c p =>
        unfold hexDigits
        split_ifs
        · exact Or.inl (Nat.lt_succ_of_le (hexDigits_length _ p))
        · exact Or.inr rfl

theorem dropWhile_separator_blank (p : List UInt16) :
    (p.dropWhile isSeparator).dropWhile isBlank = p.dropWhile isSeparator := by
  rw [List.dropWhile_eq_self_iff]
  intro hlength
  have hhead := List.head_dropWhile_not isSeparator (List.ne_nil_of_length_pos hlength)
  rw [List.head_eq_getElem] at hhead
  simp only [isSeparator, isBlank, Bool.or_eq_true, not_or, Bool.or_eq_false_iff] at hhead ⊢
  simp [hhead]

/-- When an iteration consumes nothing the loop does not end. -/
theorem parseLoop_stuck {cap : ℕ} {out : List UInt64} {p : List UInt16}
    (hcap : ¬(p = [] ∨ cap ≤ out.length)) (hseparator : p.dropWhile isSeparator = p)
    (hstays : parseHex p = (0, p)) (fuel : ℕ) : parseLoop cap fuel out p = none := by
  induction fuel with
  | zero => rfl
  | succ fuel ih =>
      have hzero : pageAlign 0 = 0 := rfl
      unfold parseLoop
      simp only [if_neg hcap, hseparator, if_neg (not_or.mp hcap).1, hstays, hzero, ne_eq,
        not_true_eq_false, if_false]
      exact ih

/-- One iteration for each character is enough for the loop to end, if it ends. -/
theorem parseLoop_fuel (cap : ℕ) {fuel : ℕ} (more : ℕ) (out : List UInt64) {p : List UInt16}
    (h : p.length < fuel) : parseLoop cap (fuel + more) out p = parseLoop cap fuel out p := by
  induction fuel generalizing out p with
  | zero => exact absurd h (Nat.not_lt_zero _)
  | succ fuel ih =>
      rw [Nat.add_right_comm]
      unfold parseLoop
      split_ifs with hcap
      · rfl
      have hdrop : (p.dropWhile isSeparator).length ≤ p.length :=
        (List.dropWhile_suffix isSeparator).length_le
      simp only
      generalize hq : p.dropWhile isSeparator = q at hdrop ⊢
      have hblank : q.dropWhile isBlank = q := by
        rw [← hq]
        exact dropWhile_separator_blank p
      have hself : q.dropWhile isSeparator = q := by
        rw [← hq, List.dropWhile_idempotent]
      split_ifs with hne hzero
      · rfl
      · rcases parseHex_progress hblank hne with hless | hstays
        · exact ih _ (by omega)
        · rw [hstays] at hzero
          exact absurd (show pageAlign 0 = 0 from rfl) hzero
      · rcases parseHex_progress hblank hne with hless | hstays
        · exact ih _ (by omega)
        · have hopen : ¬(q = [] ∨ cap ≤ out.length) := not_or.mpr ⟨hne, (not_or.mp hcap).2⟩
          rw [hstays, parseLoop_stuck hopen hself hstays, parseLoop_stuck hopen hself hstays]

/-- A line on which the parser does not return keeps it in its loop for ever. -/
theorem parseAddresses_none {line : List UInt16} {cap : ℕ} (h : parseAddresses line cap = none)
    (fuel : ℕ) : parseLoop cap (line.length + 1 + fuel) [] line = none :=
  (parseLoop_fuel cap fuel [] (Nat.lt_succ_self _)).trans h

example : parseAddresses [0x30, 0x78, 0x31, 0x30, 0x30, 0x30, 0x2C, 0x7A] 256 = none := by decide

end BankFinder.AddressEntry
