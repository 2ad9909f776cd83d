import BankFinder.AddressWords
import BankFinder.BadmemLog

/-!
# The address list on the screen

At the end of a pass `badmem_log_dump` shows the logged pages as hexadecimal numbers,
separated by commas and broken into lines. The user types the list into `brr-entry`,
which has to find the same pages in it wherever the lines were broken.
-/

namespace BankFinder.AddressDump
open Nvram BootSession CappedLog BadmemLog AddressEntry SeparatedWords AddressWords

def space : UInt8 := 0x20

def nibbleChar (nib : UInt64) : UInt8 :=
  if nib < 10 then 0x30 + nib.toUInt8 else 0x61 + nib.toUInt8 - 10

/-- `(v >> shift) & 0xF` -/
def nibble (v : UInt64) (shift : ℕ) : UInt64 := (v >>> UInt64.ofNat shift) &&& 0xF

/-- The digits of the lowest `k` nibbles; zeros in front are left out until a digit was
written, but not the last one. -/
def hexChars (v : UInt64) : ℕ → Bool → List UInt8
  | 0, started => if started then [] else [0x30]
  | k + 1, started =>
      let shift := 4 * k
      let nib := nibble v shift
      if started = false ∧ nib = 0 ∧ 0 < shift then hexChars v k started
      else nibbleChar nib :: hexChars v k true

/-- `abuf[]` for an address. -/
def addrText (v : UInt64) : List UInt8 := [0x30, 0x78] ++ hexChars v 16 false

/-- What follows an address: nothing after the last one. -/
def listSeparator (more : List UInt64) : List UInt8 := if more.isEmpty then [] else [comma, space]

/-- The lines from `line[]` and the remaining addresses; a line is shown before it would have
more than 60 characters. -/
def dumpLoop : List UInt8 → List UInt64 → List (List UInt8)
  | line, [] => if 0 < line.length then [line] else []
  | line, v :: more =>
      let item := addrText v ++ listSeparator more
      if line.length + item.length > 60 then line :: dumpLoop item more
      else dumpLoop (line ++ item) more

/-- The lines of the address list as they are shown. -/
def addressLines (log : Log) : List (List UInt8) :=
  (dumpLoop [] log.pages).map (ascii "    " ++ ·)

/-- `badmem_log_dump` -/
def badmemLogDump (log : Log) : List (List UInt8) :=
  [[], ascii ("  BAD ADDRESSES (" ++ toString log.pages.length ++
    " found) -- photograph this line:")] ++
    if log.pages.length = 0 then [ascii "    (none detected)"] else addressLines log

/-- Below the heading stands the list, if there is one. -/
theorem badmemLogDump_list {log : Log} (h : log.pages ≠ []) :
    (badmemLogDump log).drop 2 = addressLines log := by
  have hlength : log.pages.length ≠ 0 := fun h0 => h (List.length_eq_zero_iff.mp h0)
  unfold badmemLogDump
  rw [if_neg hlength]
  rfl

/-- The lines one after another, with any number of blanks at their ends. -/
inductive Retyped : List (List UInt8) → List UInt8 → Prop
  | nil : Retyped [] []
  | cons (a b k m : ℕ) {core text : List UInt8} {lines : List (List UInt8)} :
      Retyped lines text →
      Retyped ((List.replicate a space ++ core ++ List.replicate b space) :: lines)
        (List.replicate k space ++ core ++ List.replicate m space ++ text)

/-- The characters as they are typed. -/
def typed (text : List UInt8) : List UInt16 := text.map UInt8.toUInt16

theorem hexValue_nibbleChar {nib : UInt64} (h : nib.toNat < 16) :
    isHexDigit (nibbleChar nib).toUInt16 = true ∧ hexValue (nibbleChar nib).toUInt16 = nib := by
  have hall : ∀ n < 16, isHexDigit (nibbleChar (UInt64.ofNat n)).toUInt16 = true ∧
      hexValue (nibbleChar (UInt64.ofNat n)).toUInt16 = UInt64.ofNat n := by decide
  have hnib := hall nib.toNat h
  rw [UInt64.ofNat_toNat] at hnib
  exact hnib

theorem toNat_nibble (v : UInt64) {k : ℕ} (hk : k < 16) :
    (nibble v (4 * k)).toNat = v.toNat / 16 ^ k % 16 := by
  have hshift : (UInt64.ofNat (4 * k)).toNat % 64 = 4 * k := by
    rw [UInt64.toNat_ofNat']
    omega
  have hmask : (0xF : UInt64).toNat = 2 ^ 4 - 1 := rfl
  have hbase : (2 : ℕ) ^ 4 = 16 := rfl
  rw [nibble, UInt64.toNat_and, UInt64.toNat_shiftRight, hshift, hmask,
    Nat.and_two_pow_sub_one_eq_mod, Nat.shiftRight_eq_div_pow, pow_mul, hbase]

theorem nibble_lt (v : UInt64) {k : ℕ} (hk : k < 16) : (nibble v (4 * k)).toNat < 16 := by
  rw [toNat_nibble v hk]
  exact Nat.mod_lt _ (by decide)

theorem hexChars_started (v : UInt64) (k : ℕ) :
    hexChars v (k + 1) true = nibbleChar (nibble v (4 * k)) :: hexChars v k true := by
  simp [hexChars]

theorem hexChars_waiting (v : UInt64) (k : ℕ) : hexChars v (k + 1) false =
    if nibble v (4 * k) = 0 ∧ 0 < 4 * k then hexChars v k false else hexChars v (k + 1) true := by
  simp [hexChars]

theorem hexChars_digits (v : UInt64) {k : ℕ} (hk : k ≤ 16) (started : Bool) :
    ∀ c ∈ hexChars v k started, isHexDigit c.toUInt16 = true := by
  induction k generalizing started with
  | zero =>
      cases started with
      | true => exact fun c hc => absurd hc List.not_mem_nil
      | false =>
          intro c hc
          rw [List.mem_singleton.mp hc]
          rfl
  | succ k ih =>
      have hnib := nibble_lt v (show k < 16 by omega)
      unfold hexChars
      simp only
      split_ifs
      · exact ih (by omega) started
      · exact List.forall_mem_cons.mpr ⟨(hexValue_nibbleChar hnib).1, ih (by omega) true⟩

theorem length_hexChars (v : UInt64) (k : ℕ) (started : Bool) :
    (hexChars v k started).length ≤ k + 1 := by
  induction k generalizing started with
  | zero => cases started <;> simp [hexChars]
  | succ k ih =>
      unfold hexChars
      simp only
      split_ifs
      · exact (ih started).trans (Nat.le_succ _)
      · exact Nat.succ_le_succ (ih true)

/-- The digits after the first one are those of the remaining nibbles. -/
theorem value_started (v : UInt64) {k : ℕ} (hk : k ≤ 16) (n : ℕ) :
    digitsValue n (typed (hexChars v k true)) = n * 16 ^ k + v.toNat % 16 ^ k := by
  induction k generalizing n with
  | zero => simp [hexChars, typed, digitsValue, Nat.mod_one]
  | succ k ih =>
      have htoNat := toNat_nibble v (show k < 16 by omega)
      have hvalue := (hexValue_nibbleChar (nibble_lt v (show k < 16 by omega))).2
      have hcons : digitsValue n (typed (hexChars v (k + 1) true)) =
          digitsValue (n * 16 + v.toNat / 16 ^ k % 16) (typed (hexChars v k true)) := by
        rw [hexChars_started, ← htoNat]
        nth_rewrite 2 [← hvalue]
        rfl
      have hmod : v.toNat % 16 ^ (k + 1) =
          v.toNat / 16 ^ k % 16 * 16 ^ k + v.toNat % 16 ^ k := by
        rw [pow_succ, Nat.mod_mul, Nat.mul_comm (16 ^ k), Nat.add_comm]
      rw [hcons, ih (by omega), hmod, pow_succ]
      ring

/-- Zeros in front of the first digit do not count. -/
theorem value_hexChars (v : UInt64) {k : ℕ} (hk : k ≤ 16) (hpos : 0 < k)
    (h : v.toNat < 16 ^ k) : digitsValue 0 (typed (hexChars v k false)) = v.toNat := by
  induction k with
  | zero => exact absurd hpos (lt_irrefl 0)
  | succ k ih =>
      have htoNat := toNat_nibble v (show k < 16 by omega)
      rw [hexChars_waiting]
      split_ifs with hskip
      · have hsmall : v.toNat < 16 ^ k := by
          rw [hskip.1, UInt64.toNat_zero] at htoNat
          have hdiv : v.toNat / 16 ^ k < 16 := by
            rw [Nat.div_lt_iff_lt_mul (by positivity), ← pow_succ']
            exact h
          rw [Nat.mod_eq_of_lt hdiv] at htoNat
          exact (Nat.div_eq_zero_iff.mp htoNat.symm).resolve_left (by positivity)
        exact ih (by omega) (by omega) hsmall
      · rw [value_started v hk, Nat.zero_mul, Nat.zero_add, Nat.mod_eq_of_lt h]

/-- An address on the screen is read back as that address. -/
structure ReadsAs (word : List UInt16) (v : UInt64) : Prop where
  nonempty : word ≠ []
  unbroken : ∀ c ∈ word, isSeparator c = false
  numeral : isNumeral word = true
  value : wordValue word = v.toNat

theorem readsAs_addrText (v : UInt64) : ReadsAs (typed (addrText v)) v := by
  have hdigits : ∀ c ∈ typed (hexChars v 16 false), isHexDigit c = true := by
    intro c hc
    obtain ⟨d, hd, rfl⟩ := List.mem_map.mp hc
    exact hexChars_digits v le_rfl false d hd
  have hskip : skipHexPrefix (typed (addrText v)) = typed (hexChars v 16 false) := by
    change skipHexPrefix (0x30 :: 0x78 :: typed (hexChars v 16 false)) = _
    rw [skipHexPrefix_cons_cons, if_pos ⟨rfl, Or.inl rfl⟩]
  refine ⟨List.cons_ne_nil _ _, ?_, ?_, ?_⟩
  · change ∀ c ∈ 0x30 :: 0x78 :: typed (hexChars v 16 false), _
    rw [List.forall_mem_cons, List.forall_mem_cons]
    refine ⟨rfl, rfl, ?_⟩
    intro c hc
    by_contra hsep
    have hnot := isHexDigit_of_separator (Bool.not_eq_false _ ▸ hsep)
    rw [hdigits c hc] at hnot
    exact Bool.noConfusion hnot
  · rw [isNumeral, hskip, List.all_eq_true]
    exact hdigits
  · have htake : (typed (hexChars v 16 false)).takeWhile isHexDigit =
        typed (hexChars v 16 false) := by
      rw [List.takeWhile_eq_self_iff]
      exact hdigits
    rw [wordValue, digitRun, hskip, htake]
    exact value_hexChars v le_rfl (by decide) v.toNat_lt

theorem length_addrText (v : UInt64) : (addrText v).length ≤ 19 := by
  have h := length_hexChars v 16 false
  unfold addrText
  rw [List.length_append]
  exact Nat.add_le_add_left h 2

def listWords (text : List UInt8) : List (List UInt16) := words isSeparator (typed text)

theorem typed_append (p q : List UInt8) : typed (p ++ q) = typed p ++ typed q :=
  List.map_append

theorem separator_of_spaces (n : ℕ) : ∀ c ∈ typed (List.replicate n space), isSeparator c = true := by
  intro c hc
  rw [typed, List.map_replicate] at hc
  rw [List.eq_of_mem_replicate hc]
  rfl

theorem listWords_spaces_left (n : ℕ) (p : List UInt8) :
    listWords (List.replicate n space ++ p) = listWords p := by
  rw [listWords, typed_append, words_append_of_seps (separator_of_spaces n)]
  rfl

theorem listWords_space (p : List UInt8) : listWords (space :: p) = listWords p :=
  listWords_spaces_left 1 p

theorem listWords_spaces_right (p : List UInt8) (n : ℕ) :
    listWords (p ++ List.replicate n space) = listWords p := by
  rw [listWords, typed_append, words_append_seps _ (separator_of_spaces n)]
  rfl

theorem listWords_comma (p q : List UInt8) :
    listWords (p ++ comma :: q) = listWords p ++ listWords q := by
  have hcomma : isSeparator comma.toUInt16 = true := rfl
  rw [listWords, typed_append]
  exact words_append_cons (typed p) hcomma (typed q)

/-- Nothing has been written, or a comma and a blank in the end. -/
def Closed (line : List UInt8) : Prop := line = [] ∨ ∃ l, line = l ++ [comma, space]

/-- Blanks at the end do not hide the comma in front of them. -/
theorem exists_last_comma {core : List UInt8}
    (h : (core.filter (· ≠ space)).getLast? = some comma) :
    ∃ l n, core = l ++ comma :: List.replicate n space := by
  induction core using List.reverseRecOn with
  | nil => cases h
  | append_singleton core c ih =>
      by_cases hc : c = space
      · rw [List.filter_append] at h
        have hnone : [c].filter (· ≠ space) = [] := by simp [hc]
        rw [hnone, List.append_nil] at h
        obtain ⟨l, n, rfl⟩ := ih h
        refine ⟨l, n + 1, ?_⟩
        rw [hc, List.append_assoc, List.cons_append, List.replicate_succ']
      · have hkeep : [c].filter (· ≠ space) = [c] := by simp [hc]
        rw [List.filter_append, hkeep, List.getLast?_concat] at h
        exact ⟨core, 0, by rw [Option.some.inj h]; rfl⟩

theorem filter_spaces (n : ℕ) : (List.replicate n space).filter (· ≠ space) = [] := by
  simp

/-- The words of a line, however many blanks are at its ends, come before those of the rest. -/
theorem listWords_line {line core text : List UInt8} {a b : ℕ} (k m : ℕ)
    (hcore : ascii "    " ++ line = List.replicate a space ++ core ++ List.replicate b space)
    (hclosed : text = [] ∨ line ≠ [] ∧ Closed line) :
    listWords (List.replicate k space ++ core ++ List.replicate m space ++ text) =
      listWords line ++ listWords text := by
  have hline : listWords line = listWords core := by
    have hshown : listWords (ascii "    " ++ line) = listWords line := listWords_spaces_left 4 line
    rw [← hshown, hcore, List.append_assoc, listWords_spaces_left, listWords_spaces_right]
  rw [hline, List.append_assoc, List.append_assoc, listWords_spaces_left]
  rcases hclosed with rfl | ⟨hne, hclosed⟩
  · have hnil : listWords [] = [] := words_nil
    rw [List.append_nil, listWords_spaces_right, hnil, List.append_nil]
  · obtain ⟨l, rfl⟩ := hclosed.resolve_left hne
    have hlast : (core.filter (· ≠ space)).getLast? = some comma := by
      have hfilter := congrArg (fun p => (p.filter (· ≠ space)).getLast?) hcore
      simp only [List.filter_append, filter_spaces, List.append_nil, List.nil_append] at hfilter
      rw [← hfilter]
      have htail : [comma, space].filter (· ≠ space) = [comma] := rfl
      rw [htail, ← List.append_assoc, List.getLast?_concat]
    obtain ⟨l', n, rfl⟩ := exists_last_comma hlast
    rw [List.append_assoc, List.cons_append, listWords_comma, listWords_spaces_left,
      listWords_spaces_left, listWords_comma]
    have hblank := listWords_spaces_left n []
    have hnil : listWords [] = [] := words_nil
    rw [List.append_nil] at hblank
    rw [hblank, hnil, List.append_nil]

theorem Retyped.cons_inv {line text : List UInt8} {lines : List (List UInt8)}
    (h : Retyped (line :: lines) text) : ∃ a b k m core rest,
      line = List.replicate a space ++ core ++ List.replicate b space ∧
        text = List.replicate k space ++ core ++ List.replicate m space ++ rest ∧
        Retyped lines rest := by
  generalize hall : line :: lines = all at h
  cases h with
  | nil => cases hall
  | cons a b k m hrest =>
      obtain ⟨rfl, rfl⟩ := List.cons.inj hall
      exact ⟨a, b, k, m, _, _, rfl, rfl, hrest⟩

/-- Typed in as they stand. -/
theorem retyped_flatten (lines : List (List UInt8)) : Retyped lines lines.flatten := by
  induction lines with
  | nil => exact .nil
  | cons line lines ih =>
      have h := @Retyped.cons 0 0 0 0 line _ _ ih
      simpa using h

theorem Retyped.nil_inv {text : List UInt8} (h : Retyped [] text) : text = [] := by
  cases h
  rfl

/-- The address which is written next is the next word. -/
theorem listWords_item {line : List UInt8} (hclosed : Closed line) (v : UInt64)
    (more : List UInt64) : listWords (line ++ (addrText v ++ listSeparator more)) =
      listWords line ++ [typed (addrText v)] := by
  have hitem : listWords (addrText v ++ listSeparator more) = [typed (addrText v)] := by
    have hword := readsAs_addrText v
    have hseps : ∀ c ∈ typed (listSeparator more), isSeparator c = true := by
      unfold listSeparator
      split_ifs
      · exact fun c hc => absurd hc List.not_mem_nil
      · exact List.forall_mem_cons.mpr ⟨rfl, List.forall_mem_singleton.mpr rfl⟩
    have hhead : ∀ c ∈ (typed (listSeparator more)).head?, isSeparator c = true :=
      fun c hc => hseps c (List.mem_of_mem_head? hc)
    rw [listWords, typed_append, words_append hword.nonempty hword.unbroken hhead,
      words_of_seps hseps]
  have hnil : listWords [] = [] := words_nil
  rcases hclosed with rfl | ⟨l, rfl⟩
  · rw [List.nil_append, hitem, hnil, List.nil_append]
  · rw [List.append_assoc, List.cons_append, List.cons_append, List.nil_append, listWords_comma,
      listWords_comma, listWords_space, listWords_space, hitem, hnil, List.append_nil]

theorem closed_item (line : List UInt8) (v w : UInt64) (more : List UInt64) :
    Closed (line ++ (addrText v ++ listSeparator (w :: more))) :=
  Or.inr ⟨line ++ addrText v, (List.append_assoc ..).symm⟩

/-- The words of the whole list, wherever its lines are broken. -/
theorem listWords_dumpLoop (more : List UInt64) {line text : List UInt8}
    (hclosed : more ≠ [] → Closed line)
    (h : Retyped ((dumpLoop line more).map (ascii "    " ++ ·)) text) :
    listWords text = listWords line ++ more.map fun v => typed (addrText v) := by
  induction more generalizing line text with
  | nil =>
      rw [List.map_nil, List.append_nil]
      unfold dumpLoop at h
      split_ifs at h with hline
      · obtain ⟨a, b, k, m, core, rest, hcore, rfl, hrest⟩ := h.cons_inv
        obtain rfl := hrest.nil_inv
        have hwords := listWords_line k m hcore (Or.inl rfl)
        have hnil : listWords [] = [] := words_nil
        rw [hwords, hnil, List.append_nil]
      · rw [h.nil_inv, List.length_eq_zero_iff.mp (Nat.eq_zero_of_not_pos hline)]
  | cons v more ih =>
      have hline := hclosed (List.cons_ne_nil v more)
      have hnext (start : List UInt8) : more ≠ [] →
          Closed (start ++ (addrText v ++ listSeparator more)) := by
        intro hne
        obtain ⟨w, rest, rfl⟩ := List.exists_cons_of_ne_nil hne
        exact closed_item start v w rest
      unfold dumpLoop at h
      simp only at h
      split_ifs at h with hlong
      · obtain ⟨a, b, k, m, core, rest, hcore, rfl, hrest⟩ := h.cons_inv
        have hne : line ≠ [] := by
          rintro rfl
          have hlength := length_addrText v
          have hsep : (listSeparator more).length ≤ 2 := by
            unfold listSeparator
            split_ifs <;> decide
          rw [List.length_append, List.length_nil] at hlong
          omega
        have hitem := listWords_item (Or.inl rfl : Closed []) v more
        have hnil : listWords [] = [] := words_nil
        rw [listWords_line k m hcore (Or.inr ⟨hne, hline⟩), ih (hnext []) hrest]
        rw [hnil, List.nil_append, List.nil_append] at hitem
        rw [List.nil_append, hitem]
        rfl
      · rw [ih (hnext line) h, listWords_item hline, List.append_assoc]
        rfl

theorem parse_pages {words : List (List UInt16)} {pages : List UInt64}
    (h : List.Forall₂ ReadsAs words pages) : words.map entry = pages.map pageAlign := by
  induction h with
  | nil => rfl
  | cons hword _ ih =>
      rw [List.map_cons, List.map_cons, ih, entry, hword.value, UInt64.ofNat_toNat]

theorem readsAs_all (pages : List UInt64) :
    List.Forall₂ ReadsAs (pages.map fun v => typed (addrText v)) pages := by
  rw [List.forall₂_map_left_iff, List.forall₂_same]
  exact fun v _ => readsAs_addrText v

theorem stored_of_numerals {ws : List (List UInt16)} (hnum : ∀ w ∈ ws, isNumeral w = true)
    (hentry : ∀ w ∈ ws, entry w ≠ 0) : stored ws = ws := by
  induction ws with
  | nil => rfl
  | cons w ws ih =>
      rw [List.forall_mem_cons] at hnum hentry
      rw [stored_numeral hnum.1, if_neg hentry.1, ih hnum.2 hentry.2]

/-- A list of pages is read back from the screen as it is. -/
theorem parse_addressLines {log : Log} {cap : ℕ} (hcap : log.pages.length ≤ cap)
    (hpages : ∀ v ∈ log.pages, pageAlign v = v ∧ v ≠ 0) {text : List UInt8}
    (h : Retyped (addressLines log) text) : parseAddresses (typed text) cap = some log.pages := by
  have hnil : listWords [] = [] := words_nil
  have hwords := listWords_dumpLoop log.pages (fun _ => Or.inl rfl) h
  rw [hnil, List.nil_append] at hwords
  have hnum : ∀ w ∈ listWords text, isNumeral w = true := by
    rw [hwords, List.forall_mem_map]
    exact fun v _ => (readsAs_addrText v).numeral
  have hentries : (listWords text).map entry = log.pages := by
    rw [hwords, parse_pages (readsAs_all log.pages), List.map_congr_left fun v hv => (hpages v hv).1,
      List.map_id']
  have hentry : ∀ w ∈ listWords text, entry w ≠ 0 := by
    intro w hw
    have hmem : entry w ∈ log.pages := hentries ▸ List.mem_map_of_mem hw
    exact (hpages _ hmem).2
  have hlength : (listWords text).length ≤ cap := by
    rw [hwords, List.length_map]
    exact hcap
  have hfinishes : Finishes (typed text) cap := Or.inl hnum
  rw [parseAddresses_eq, if_pos hfinishes, written]
  change some (List.map entry (List.take cap (stored (listWords text)))) = _
  rw [stored_of_numerals hnum hentry, List.take_of_length_le hlength, hentries]

/-- Whatever was reported, the list on the screen, typed in with any blanks where its lines are
broken, gives the reported pages in the order of their first report. -/
theorem typed_list_gives_pages (reports : List UInt64)
    (hcount : (reports.map pageAlign).toFinset.card ≤ 256)
    (hzero : 0 ∉ reports.map pageAlign) {text : List UInt8}
    (h : Retyped (addressLines (reports.foldl badmemLogRecord {})) text) :
    parseAddresses (typed text) 256 = some (reports.map pageAlign).eraseDups := by
  have hpages : (reports.foldl badmemLogRecord {}).pages = (reports.map pageAlign).eraseDups := by
    rw [foldl_badmemLogRecord_pages]
    exact recordAll_eq_eraseDups (hcount.trans (by decide))
  have hlength : (reports.foldl badmemLogRecord {}).pages.length ≤ 256 := by
    have hnodup : (reports.foldl badmemLogRecord {}).pages.Nodup := by
      rw [foldl_badmemLogRecord_pages]
      exact recordAll_nodup List.nodup_nil maxEntries _
    have hset : (reports.foldl badmemLogRecord {}).pages.toFinset =
        (reports.map pageAlign).toFinset := by
      ext v
      rw [hpages, List.mem_toFinset, List.mem_toFinset, List.mem_eraseDups]
    rw [← List.toFinset_card_of_nodup hnodup, hset]
    exact hcount
  rw [← hpages]
  refine parse_addressLines hlength ?_ h
  intro v hv
  rw [hpages, List.mem_eraseDups] at hv
  obtain ⟨a, ha, rfl⟩ := List.mem_map.mp hv
  refine ⟨?_, fun h => hzero (h ▸ List.mem_map_of_mem ha)⟩
  apply UInt64.toNat_inj.mp
  rw [pageAlign_toNat, pageAlign_toNat]
  omega

/-- Seven reports in six pages, on two lines. -/
def sevenReports : List UInt64 :=
  [0x12345678, 0xB2100000, 0x12345ABC, 0x1000, 0xFFFFFFFFFFFFF000, 0xB2300000, 0xB2400000]

theorem seven_reports_read_back :
    (addressLines (sevenReports.foldl badmemLogRecord {})).length = 2 ∧
      (sevenReports.map pageAlign).eraseDups =
        [0x12345000, 0xB2100000, 0x1000, 0xFFFFFFFFFFFFF000, 0xB2300000, 0xB2400000] ∧
      parseAddresses (typed (addressLines (sevenReports.foldl badmemLogRecord {})).flatten) 256 =
        some (sevenReports.map pageAlign).eraseDups := by
  refine ⟨by decide +kernel, by decide +kernel, ?_⟩
  exact typed_list_gives_pages sevenReports (by decide +kernel) (by decide +kernel)
    (retyped_flatten _)

end BankFinder.AddressDump
