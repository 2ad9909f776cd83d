import BankFinder.DevicePaths

/-!
# Reading a load option

`try_bootorder_chainload` reads the description of a boot entry and takes the name of the
file out of its device path. Every access to the data of the variable and to `fp[256]` is
checked here: what `GetVariable` has not delivered may not be read.
-/

namespace BankFinder.LoadOption
open TaggedNodes DevicePaths

/-- An access outside of the variable, or outside of `fp`. -/
inductive Fault where
  | read
  | write
  deriving DecidableEq, Repr

abbrev Access (A : Type) := Except Fault A

def fetch {A : Type} (l : List A) (i : ℕ) : Access A :=
  match l[i]? with
  | some a => .ok a
  | none => .error .read

def unitAt (data : List UInt8) (p : ℕ) : Access UInt16 := do
  let lo ← fetch data p
  let hi ← fetch data (p + 1)
  return UInt16.ofNat (lo.toNat + 256 * hi.toNat)

/-- `desc[di]` -/
def desc (data : List UInt8) (di : ℕ) : Access UInt16 := unitAt data (6 + 2 * di)

/-- `while (hay[i + j] && needle[j] && hay[i + j] == needle[j]) j++;` -/
def matchesAt (hay : ℕ → Access UInt16) : List UInt16 → ℕ → Access Bool
  | [], i => do
      let _ ← hay i
      return true
  | n :: needle, i => do
      let h ← hay i
      if h ≠ 0 ∧ h = n then matchesAt hay needle (i + 1) else return false

def containsFrom (hay : ℕ → Access UInt16) (needle : List UInt16) : ℕ → ℕ → Access Bool
  | 0, _ => return false
  | fuel + 1, i => do
      let h ← hay i
      if h = 0 then return false
      else if ← matchesAt hay needle i then return true
      else containsFrom hay needle fuel (i + 1)

/-- `u16_contains(desc, needle)` -/
def descContains (data : List UInt8) (needle : String) : Access Bool :=
  containsFrom (desc data) (charsOf needle) data.length 0

/-- `while (6 + (di + 1) * 2 < opt_sz && desc[di] != 0) di++;` -/
def scanDesc (data : List UInt8) : ℕ → ℕ → Access ℕ
  | 0, di => return di
  | fuel + 1, di =>
      if 6 + (di + 1) * 2 < data.length then do
        let c ← desc data di
        if c ≠ 0 then scanDesc data fuel (di + 1) else return di
      else return di

/-- Where the device path begins, and `fpl_len`. -/
structure Header where
  dp : ℕ
  fplLen : ℕ
  deriving DecidableEq, Repr

/-- `none` when the list would end behind the variable. -/
def parseHeader (data : List UInt8) : Access (Option Header) := do
  let lo ← fetch data 4
  let hi ← fetch data 5
  let fplLen := lo.toNat + 256 * hi.toNat
  let di ← scanDesc data data.length 0
  let descBytes := (di + 1) * 2
  let dp := 6 + descBytes
  return if data.length < dp + fplLen then none else some ⟨dp, fplLen⟩

def fpCap : ℕ := 256

/-- `fp[pos++] = c;` -/
def store (fp : List UInt16) (c : UInt16) : Access (List UInt16) :=
  if fp.length < fpCap then .ok (fp ++ [c]) else .error .write

/-- `fp[pos] = 0;` -/
def terminate (fp : List UInt16) : Access (List UInt16) :=
  if fp.length < fpCap then .ok fp else .error .write

/-- `for (k = 0; k < chars && src[k] != 0 && pos + 1 < 256; k++) fp[pos++] = src[k];` -/
def copyChars (src : ℕ → Access UInt16) : ℕ → ℕ → List UInt16 → Access (List UInt16)
  | 0, _, fp => return fp
  | chars + 1, k, fp => do
      let c ← src k
      if c ≠ 0 ∧ fp.length + 1 < fpCap then do
        let fp ← store fp c
        copyChars src chars (k + 1) fp
      else return fp

def walkList (data : List UInt8) (dpe : ℕ) : ℕ → ℕ → List UInt16 → Access (List UInt16)
  | 0, _, fp => return fp
  | fuel + 1, dpp, fp =>
      if dpp < dpe then do
        let t ← fetch data dpp
        let sub ← fetch data (dpp + 1)
        let lo ← fetch data (dpp + 2)
        let hi ← fetch data (dpp + 3)
        let nlen := lo.toNat + 256 * hi.toNat
        if nlen < 4 then return fp
        else if t = endType ∧ sub = endSubType then return fp
        else do
          let fp ← if t = mediaType ∧ sub = filePathSubType then
              copyChars (fun k => unitAt data (dpp + 4 + 2 * k)) ((nlen - 4) / 2) 0 fp
            else pure fp
          walkList data dpe fuel (dpp + nlen) fp
      else return fp

/-- `fp[256]` after the walk. -/
def filePath (data : List UInt8) (h : Header) : Access (List UInt16) := do
  let fp ← walkList data (h.dp + h.fplLen) h.fplLen h.dp []
  terminate fp

/-- What becomes of an entry: it is passed over, or its file is looked for. -/
inductive Verdict where
  | malformed
  | usb
  | self
  | noPath
  | file (fp : List UInt16)
  deriving DecidableEq, Repr

def verdictOf (fp : List UInt16) : Verdict := if fp.isEmpty then .noPath else .file fp

def parseOption (data : List UInt8) : Access Verdict := do
  match ← parseHeader data with
  | none => return .malformed
  | some h =>
      if ← descContains data "USB" then return .usb
      else if ← descContains data "BRR" then return .self
      else if ← descContains data "mask" then return .self
      else do
        let fp ← filePath data h
        return verdictOf fp

section
variable {A : Type} {l rest : List A} {i : ℕ} {a : A}

theorem fetch_drop (l : List A) (i k : ℕ) : fetch (l.drop i) k = fetch l (i + k) := by
  rw [fetch, fetch, List.getElem?_drop]

theorem fetch_of_drop (h : l.drop i = a :: rest) : fetch l i = .ok a := by
  rw [← Nat.add_zero i, ← fetch_drop, h]
  rfl

theorem fetch_of_drop_nil (h : l.drop i = []) : fetch l i = .error .read := by
  rw [← Nat.add_zero i, ← fetch_drop, h]
  rfl

theorem drop_next (h : l.drop i = a :: rest) : l.drop (i + 1) = rest := by
  rw [← List.drop_drop, h]
  rfl

@[simp] theorem ok_bind {B : Type} (f : A → Access B) : ((.ok a : Access A) >>= f) = f a := rfl

@[simp] theorem error_bind {B : Type} (e : Fault) (f : A → Access B) :
    ((.error e : Access A) >>= f) = .error e := rfl

@[simp] theorem pure_eq_ok : (pure a : Access A) = .ok a := rfl

end

theorem unitAt_eq (data : List UInt8) (p k : ℕ) :
    unitAt data (p + 2 * k) = fetch (units (data.drop p)) k := by
  rw [← Nat.add_zero k, ← fetch_drop, ← units_drop, List.drop_drop, Nat.add_zero]
  unfold unitAt
  match hleft : data.drop (p + 2 * k) with
  | [] => rw [fetch_of_drop_nil hleft]; rfl
  | [b] => rw [fetch_of_drop hleft, fetch_of_drop_nil (drop_next hleft)]; rfl
  | lo :: hi :: rest => rw [fetch_of_drop hleft, fetch_of_drop (drop_next hleft)]; rfl

/-- The units behind the two length fields, to the end of the variable. -/
def descUnits (data : List UInt8) : List UInt16 := units (data.drop 6)

theorem desc_eq (data : List UInt8) : desc data = fetch (descUnits data) := by
  funext di
  exact unitAt_eq data 6 di

section
variable {us text rest needle : List UInt16} {i : ℕ}

/-- Up to the NUL nothing is missing. -/
theorem matchesAt_text (hneedle : 0 ∉ needle) (htext : 0 ∉ text)
    (h : us.drop i = text ++ 0 :: rest) :
    matchesAt (fetch us) needle i = .ok (decide (needle <+: text)) := by
  induction needle generalizing i text with
  | nil =>
      obtain ⟨c, us', hc⟩ : ∃ c us', us.drop i = c :: us' := by
        cases text with
        | nil => exact ⟨0, rest, h⟩
        | cons c text => exact ⟨c, text ++ 0 :: rest, h⟩
      rw [matchesAt, fetch_of_drop hc]
      simp
  | cons n needle ih =>
      rw [List.mem_cons, not_or] at hneedle
      cases text with
      | nil =>
          rw [matchesAt, fetch_of_drop h]
          simp
      | cons c text =>
          rw [List.mem_cons, not_or] at htext
          rw [matchesAt, fetch_of_drop h, ok_bind]
          by_cases hc : c = n
          · rw [if_pos ⟨Ne.symm htext.1, hc⟩, ih hneedle.2 htext.2 (drop_next h)]
            simp [List.cons_prefix_cons, hc]
          · rw [if_neg fun h => hc h.2]
            simp [List.cons_prefix_cons, Ne.symm hc]

theorem containsFrom_text (hne : needle ≠ []) (hneedle : 0 ∉ needle) (htext : 0 ∉ text)
    (h : us.drop i = text ++ 0 :: rest) {fuel : ℕ} (hfuel : text.length ≤ fuel) :
    containsFrom (fetch us) needle fuel i = .ok (decide (needle <:+: text)) := by
  induction text generalizing i fuel with
  | nil =>
      cases fuel with
      | zero => simp [containsFrom, hne]
      | succ fuel =>
          rw [containsFrom, fetch_of_drop h]
          simp [hne]
  | cons c text ih =>
      cases fuel with
      | zero => exact absurd hfuel (Nat.not_succ_le_zero _)
      | succ fuel =>
          have htail := List.mem_cons.not.mp htext
          rw [not_or] at htail
          rw [containsFrom, fetch_of_drop h, ok_bind, if_neg (Ne.symm htail.1),
            matchesAt_text hneedle htext h, ok_bind]
          rw [ih htail.2 (drop_next h) (Nat.le_of_succ_le_succ hfuel)]
          by_cases hstarts : needle <+: c :: text
          · simp [hstarts, List.infix_cons_iff]
          · simp [hstarts, List.infix_cons_iff]

/-- Without a NUL the comparison may run out of the variable. -/
theorem matchesAt_open (hus : 0 ∉ us) {left : List UInt16} (h : us.drop i = left) :
    matchesAt (fetch us) needle i =
      if left <+: needle then .error .read else .ok (decide (needle <+: left)) := by
  induction needle generalizing i left with
  | nil =>
      cases left with
      | nil =>
          rw [matchesAt, fetch_of_drop_nil h]
          simp
      | cons c left =>
          rw [matchesAt, fetch_of_drop h]
          simp
  | cons n needle ih =>
      cases left with
      | nil =>
          rw [matchesAt, fetch_of_drop_nil h]
          simp
      | cons c left =>
          have hc0 : c ≠ 0 := by
            rintro rfl
            exact hus (List.mem_of_mem_drop (h ▸ List.mem_cons_self))
          rw [matchesAt, fetch_of_drop h, ok_bind]
          by_cases hc : c = n
          · rw [if_pos ⟨hc0, hc⟩, ih (drop_next h)]
            simp [List.cons_prefix_cons, hc]
          · rw [if_neg fun h => hc h.2]
            simp [List.cons_prefix_cons, hc, Ne.symm hc]

/-- Where a longer string does not run out, a prefix of it is one before its last unit. -/
theorem isPrefix_dropLast {left : List UInt16} (h : needle <+: left) (hover : ¬left <+: needle) :
    needle <+: left.dropLast := by
  refine List.prefix_of_prefix_length_le h (List.dropLast_prefix _) ?_
  rw [List.length_dropLast]
  by_contra hlong
  have heq := h.eq_of_length_le (by omega)
  exact hover (heq ▸ List.prefix_refl needle)

theorem infix_dropLast_cons {c : UInt16} {left : List UInt16} (h : ¬needle <+: c :: left) :
    needle <:+: (c :: left).dropLast ↔ needle <:+: left.dropLast := by
  cases left with
  | nil => rfl
  | cons d left =>
      rw [List.dropLast_cons_cons, List.infix_cons_iff]
      refine or_iff_right fun hin => h (hin.trans ?_)
      rw [← List.dropLast_cons_cons]
      exact List.dropLast_prefix _

/-- Without a NUL the search stays in the variable only when it succeeds before the last
unit. -/
theorem containsFrom_open (hne : needle ≠ []) (hus : 0 ∉ us) {left : List UInt16}
    (h : us.drop i = left) {fuel : ℕ} (hfuel : left.length < fuel) :
    containsFrom (fetch us) needle fuel i =
      if needle <:+: left.dropLast then .ok true else .error .read := by
  induction left generalizing i fuel with
  | nil =>
      cases fuel with
      | zero => exact absurd hfuel (Nat.not_lt_zero _)
      | succ fuel =>
          rw [containsFrom, fetch_of_drop_nil h, error_bind, if_neg]
          simpa using hne
  | cons c left ih =>
      cases fuel with
      | zero => exact absurd hfuel (Nat.not_lt_zero _)
      | succ fuel =>
          have hc0 : c ≠ 0 := by
            rintro rfl
            exact hus (List.mem_of_mem_drop (h ▸ List.mem_cons_self))
          rw [containsFrom, fetch_of_drop h, ok_bind, if_neg hc0, matchesAt_open hus h]
          by_cases hover : c :: left <+: needle
          · have hnot : ¬needle <:+: (c :: left).dropLast := by
              intro hin
              have hlen := hin.length_le.trans' hover.length_le
              rw [List.length_dropLast, List.length_cons] at hlen
              omega
            rw [if_pos hover, error_bind, if_neg hnot]
          · rw [if_neg hover, ok_bind]
            by_cases hstarts : needle <+: c :: left
            · rw [if_pos (decide_eq_true hstarts), if_pos (isPrefix_dropLast hstarts hover).isInfix]
              rfl
            · rw [if_neg (by simpa using hstarts),
                ih (drop_next h) (Nat.lt_of_succ_lt_succ hfuel)]
              simp only [infix_dropLast_cons hstarts]

end

theorem length_descUnits (data : List UInt8) :
    (descUnits data).length = (data.length - 6) / 2 := by
  rw [descUnits, length_units, List.length_drop]

theorem fetch_of_getElem? {A : Type} {l : List A} {i : ℕ} {a : A} (h : l[i]? = some a) :
    fetch l i = .ok a := by
  rw [fetch, h]

/-- The scan for the NUL stops in front of it, and at the latest where the next unit would
end behind the variable. -/
theorem scanDesc_eq (data : List UInt8) {fuel di : ℕ}
    (hdi : di ≤ min (textOf (descUnits data)).length ((data.length - 7) / 2))
    (hfuel : min (textOf (descUnits data)).length ((data.length - 7) / 2) ≤ di + fuel) :
    scanDesc data fuel di =
      .ok (min (textOf (descUnits data)).length ((data.length - 7) / 2)) := by
  induction fuel generalizing di with
  | zero =>
      have heq : di = min (textOf (descUnits data)).length ((data.length - 7) / 2) := by omega
      rw [← heq]
      rfl
  | succ fuel ih =>
      have hiff := lt_length_textOf (le_trans hdi (Nat.min_le_left _ _))
      unfold scanDesc
      by_cases hroom : 6 + (di + 1) * 2 < data.length
      · have hlt : di < (descUnits data).length := by
          rw [length_descUnits]
          omega
        have hget : (descUnits data)[di]? = some (descUnits data)[di] :=
          List.getElem?_eq_getElem hlt
        rw [if_pos hroom, desc_eq, fetch_of_getElem? hget, ok_bind]
        split_ifs with hc
        · have htext : di < (textOf (descUnits data)).length := hiff.mpr ⟨_, hget, hc⟩
          exact ih (by omega) (by omega)
        · have htext : ¬di < (textOf (descUnits data)).length := by
            intro hlt
            obtain ⟨u, hu, hne⟩ := hiff.mp hlt
            rw [hget] at hu
            exact hc (Option.some.inj hu ▸ hne)
          rw [show min (textOf (descUnits data)).length ((data.length - 7) / 2) = di by omega]
          rfl
      · rw [if_neg hroom,
          show min (textOf (descUnits data)).length ((data.length - 7) / 2) = di by omega]
        rfl

/-- The description of an option. -/
def descText (data : List UInt8) : List UInt16 := textOf (descUnits data)

/-- `fpl_len` -/
def listLength (data : List UInt8) : ℕ := (data.getD 4 0).toNat + 256 * (data.getD 5 0).toNat

/-- The `FilePathList` of an option. -/
def pathList (data : List UInt8) (h : Header) : List UInt8 := (data.drop h.dp).take h.fplLen

/-- Where the list begins when the description has its NUL. -/
def listStart (data : List UInt8) : ℕ := 6 + ((descText data).length + 1) * 2

theorem parseHeader_eq {data : List UInt8} (h : 8 ≤ data.length) :
    parseHeader data =
      let dp := 6 + (min (descText data).length ((data.length - 7) / 2) + 1) * 2
      .ok (if data.length < dp + listLength data then none else some ⟨dp, listLength data⟩) := by
  have hfetch (i : ℕ) (hi : i < 8) : fetch data i = .ok (data.getD i 0) := by
    have hlt : i < data.length := by omega
    rw [List.getD_eq_getElem data 0 hlt]
    exact fetch_of_getElem? (List.getElem?_eq_getElem hlt)
  unfold parseHeader
  rw [hfetch 4 (by decide), ok_bind, hfetch 5 (by decide), ok_bind,
    scanDesc_eq data (Nat.zero_le _) (by omega)]
  rfl

/-- A NUL is in reach of the scan. -/
theorem parseHeader_terminated {data : List UInt8} (h : 8 ≤ data.length)
    (hnul : 0 ∈ descUnits data) : parseHeader data =
      .ok (if data.length < listStart data + listLength data then none
        else some ⟨listStart data, listLength data⟩) := by
  obtain ⟨rest, hsplit, -⟩ := textOf_split hnul
  have hlen := length_descUnits data
  rw [hsplit, List.length_append, List.length_cons] at hlen
  have hmin : min (descText data).length ((data.length - 7) / 2) = (descText data).length := by
    unfold descText
    omega
  rw [parseHeader_eq h, hmin]
  rfl

/-- Without a NUL only an empty list behind the last unit is accepted. -/
theorem parseHeader_open {data : List UInt8} (h : 8 ≤ data.length) (hnul : 0 ∉ descUnits data) :
    parseHeader data =
      .ok (if data.length % 2 = 1 ∨ listLength data ≠ 0 then none
        else some ⟨data.length, 0⟩) := by
  have hlen := length_descUnits data
  have hmin : min (descText data).length ((data.length - 7) / 2) = (data.length - 7) / 2 := by
    rw [descText, textOf_open hnul]
    omega
  rw [parseHeader_eq h, hmin]
  simp only []
  congr 1
  split_ifs with hlt hcond hcond
  · rfl
  · omega
  · omega
  · congr 2 <;> omega

theorem descContains_text {data : List UInt8} (hnul : 0 ∈ descUnits data) {needle : String}
    (hne : charsOf needle ≠ []) (hneedle : 0 ∉ charsOf needle) :
    descContains data needle = .ok (decide (charsOf needle <:+: descText data)) := by
  obtain ⟨rest, hsplit, htext⟩ := textOf_split hnul
  have hlen := length_descUnits data
  rw [hsplit, List.length_append] at hlen
  unfold descContains
  rw [desc_eq]
  exact containsFrom_text hne hneedle htext (List.drop_zero.trans hsplit) (by omega)

theorem descContains_open {data : List UInt8} (h : 8 ≤ data.length) (hnul : 0 ∉ descUnits data)
    {needle : String} (hne : charsOf needle ≠ []) : descContains data needle =
      if charsOf needle <:+: (descUnits data).dropLast then .ok true else .error .read := by
  have hlen := length_descUnits data
  unfold descContains
  rw [desc_eq]
  exact containsFrom_open hne hnul List.drop_zero (by omega)

def NamesUsb (text : List UInt16) : Prop := charsOf "USB" <:+: text

def NamesSelf (text : List UInt16) : Prop := charsOf "BRR" <:+: text ∨ charsOf "mask" <:+: text

instance (text : List UInt16) : Decidable (NamesUsb text) := inferInstanceAs (Decidable (_ <:+: _))

instance (text : List UInt16) : Decidable (NamesSelf text) := inferInstanceAs (Decidable (_ ∨ _))

/-- What becomes of an entry whose description has its NUL. -/
theorem parseOption_terminated {data : List UInt8} (h : 8 ≤ data.length)
    (hnul : 0 ∈ descUnits data) : parseOption data =
      if data.length < listStart data + listLength data then .ok .malformed
      else if NamesUsb (descText data) then .ok .usb
      else if NamesSelf (descText data) then .ok .self
      else (filePath data ⟨listStart data, listLength data⟩).map verdictOf := by
  unfold parseOption
  rw [parseHeader_terminated h hnul, descContains_text hnul (by decide) (by decide),
    descContains_text hnul (by decide) (by decide), descContains_text hnul (by decide) (by decide)]
  by_cases hlen : data.length < listStart data + listLength data
  · rw [if_pos hlen, if_pos hlen]
    rfl
  · rw [if_neg hlen, if_neg hlen]
    simp only [ok_bind, decide_eq_true_eq]
    by_cases husb : charsOf "USB" <:+: descText data
    · have hnames : NamesUsb (descText data) := husb
      rw [if_pos husb, if_pos hnames]
      rfl
    · have hnames : ¬NamesUsb (descText data) := husb
      rw [if_neg husb, if_neg hnames]
      by_cases hbrr : charsOf "BRR" <:+: descText data
      · have hself : NamesSelf (descText data) := Or.inl hbrr
        rw [if_pos hbrr, if_pos hself]
        rfl
      · by_cases hmask : charsOf "mask" <:+: descText data
        · have hself : NamesSelf (descText data) := Or.inr hmask
          rw [if_neg hbrr, if_pos hmask, if_pos hself]
          rfl
        · have hself : ¬NamesSelf (descText data) := not_or.mpr ⟨hbrr, hmask⟩
          rw [if_neg hbrr, if_neg hmask, if_neg hself]
          cases filePath data ⟨listStart data, listLength data⟩ with
          | error e => rfl
          | ok fp => rfl

theorem parseOption_open {data : List UInt8} (h : 8 ≤ data.length) (hnul : 0 ∉ descUnits data) :
    parseOption data =
      if data.length % 2 = 1 ∨ listLength data ≠ 0 then .ok .malformed
      else if NamesUsb (descUnits data).dropLast then .ok .usb
      else .error .read := by
  unfold parseOption
  rw [parseHeader_open h hnul, descContains_open h hnul (by decide)]
  by_cases hlist : data.length % 2 = 1 ∨ listLength data ≠ 0
  · rw [if_pos hlist, if_pos hlist]
    rfl
  · rw [if_neg hlist, if_neg hlist]
    by_cases husb : charsOf "USB" <:+: (descUnits data).dropLast
    · have hnames : NamesUsb (descUnits data).dropLast := husb
      rw [if_pos husb, if_pos hnames]
      rfl
    · have hnames : ¬NamesUsb (descUnits data).dropLast := husb
      rw [if_neg husb, if_neg hnames]
      rfl

end BankFinder.LoadOption
