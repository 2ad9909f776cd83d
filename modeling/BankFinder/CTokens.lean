import Mathlib

/-!
# Tokens of C

The part of C's lexical grammar which tables of constants are written in: names, decimal
numbers, string literals with simple escapes, punctuation, line comments and directives. A text
is read token by token, and what is read of one piece does not depend on the next one when the
piece ends its last token itself.
-/

namespace BankFinder.CTokens

inductive Sign where
  | lbrace | rbrace | lbracket | rbracket | lparen | rparen
  | comma | semicolon | equals | dot | star | amp | minus
  deriving DecidableEq, Repr

inductive Token where
  | ident (name : List UInt8)
  | number (value : ℕ)
  | text (bytes : List UInt8)
  | punct (sign : Sign)
  deriving DecidableEq, Repr

def isDigit (c : UInt8) : Bool := decide (0x30 ≤ c) && decide (c ≤ 0x39)

def isLetter (c : UInt8) : Bool :=
  decide (0x41 ≤ c) && decide (c ≤ 0x5A) || decide (0x61 ≤ c) && decide (c ≤ 0x7A) || c == 0x5F

def isName (c : UInt8) : Bool := isLetter c || isDigit c

def isBlank (c : UInt8) : Bool := c == 0x20 || decide (0x09 ≤ c) && decide (c ≤ 0x0D)

def signs : List (UInt8 × Sign) :=
  [(0x7B, .lbrace), (0x7D, .rbrace), (0x5B, .lbracket), (0x5D, .rbracket), (0x28, .lparen),
    (0x29, .rparen), (0x2C, .comma), (0x3B, .semicolon), (0x3D, .equals), (0x2E, .dot),
    (0x2A, .star), (0x26, .amp), (0x2D, .minus)]

def isPunct (c : UInt8) : Bool := (signs.lookup c).isSome

/-- The simple escapes which are used: `\n`, `\t`, `\\` and `\"`. -/
def escape (c : UInt8) : Option UInt8 :=
  if c = 0x6E then some 0x0A
  else if c = 0x74 then some 0x09
  else if c = 0x5C ∨ c = 0x22 then some c
  else none

/-- A byte which cannot stand in a literal by itself: the ends of a line and NUL. -/
def breaksText (c : UInt8) : Bool := c == 0x0A || c == 0x0D || c == 0

/-- Up to the closing quote; `escaped` after a backslash. -/
def readText : Bool → List UInt8 → Option (List UInt8 × List UInt8)
  | _, [] => none
  | true, c :: s => (escape c).bind fun byte =>
      (readText false s).map fun r => (byte :: r.1, r.2)
  | false, c :: s =>
      if c = 0x22 then some ([], s)
      else if breaksText c then none
      else if c = 0x5C then readText true s
      else (readText false s).map fun r => (c :: r.1, r.2)

def decimal (digits : List UInt8) : ℕ := digits.foldl (fun v c => 10 * v + (c.toNat - 0x30)) 0

/-- A number has no letters in it, a leading zero would make it octal, and no type holds one
from 2^63 on. -/
def readNumber (word : List UInt8) : Option ℕ :=
  if word.all isDigit && (word.length == 1 || word.head? != some 0x30) &&
      decide (decimal word < 2 ^ 63) then some (decimal word)
  else none

/-- What stands first: a token, or something between tokens. -/
def next (c : UInt8) (s : List UInt8) : Option (Option Token × List UInt8) :=
  if isBlank c then some (none, s)
  else if c = 0x23 ∨ c = 0x2F ∧ s.head? = some 0x2F then some (none, s.dropWhile (· != 0x0A))
  else if isLetter c then
    some (some (.ident (c :: s.takeWhile isName)), s.dropWhile isName)
  else if isDigit c then
    (readNumber (c :: s.takeWhile isName)).map fun n => (some (.number n), s.dropWhile isName)
  else if c = 0x22 then (readText false s).map fun r => (some (.text r.1), r.2)
  else (signs.lookup c).map fun sign => (some (.punct sign), s)

theorem readText_append {escaped : Bool} {s bytes rest : List UInt8}
    (h : readText escaped s = some (bytes, rest)) (more : List UInt8) :
    rest.length < s.length ∧ readText escaped (s ++ more) = some (bytes, rest ++ more) := by
  induction s generalizing escaped bytes with
  | nil => cases h
  | cons c s ih =>
      cases escaped with
      | true =>
          simp only [readText, Option.bind_eq_some_iff, Option.map_eq_some_iff] at h
          obtain ⟨byte, hbyte, r, hr, heq⟩ := h
          cases heq
          obtain ⟨hshorter, hread⟩ := ih hr
          refine ⟨Nat.lt_succ_of_lt hshorter, ?_⟩
          simp only [List.cons_append, readText, hbyte, Option.bind_some, hread, Option.map_some]
      | false =>
          rw [List.cons_append]
          unfold readText at h ⊢
          split_ifs at h ⊢ with hquote hline hslash
          · cases h
            exact ⟨Nat.lt_succ_self _, rfl⟩
          · obtain ⟨hshorter, hread⟩ := ih h
            exact ⟨Nat.lt_succ_of_lt hshorter, hread⟩
          · obtain ⟨r, hr, heq⟩ := Option.map_eq_some_iff.mp h
            cases heq
            obtain ⟨hshorter, hread⟩ := ih hr
            exact ⟨Nat.lt_succ_of_lt hshorter, by rw [hread]; rfl⟩

theorem readText_escape {c byte : UInt8} (h : escape c = some byte) (s : List UInt8) :
    readText false (0x5C :: c :: s) = (readText false s).map fun r => (byte :: r.1, r.2) := by
  rw [readText, if_neg (by decide), if_neg (by decide), if_pos rfl, readText, h, Option.bind_some]

theorem length_dropWhile_le {p : UInt8 → Bool} (s : List UInt8) :
    (s.dropWhile p).length ≤ s.length := (List.dropWhile_sublist p).length_le

theorem next_shorter {c : UInt8} {s rest : List UInt8} {t : Option Token}
    (h : next c s = some (t, rest)) : rest.length ≤ s.length := by
  unfold next at h
  split_ifs at h
  · cases h
    exact le_rfl
  · cases h
    exact length_dropWhile_le s
  · cases h
    exact length_dropWhile_le s
  · obtain ⟨n, -, heq⟩ := Option.map_eq_some_iff.mp h
    cases heq
    exact length_dropWhile_le s
  · obtain ⟨r, hr, heq⟩ := Option.map_eq_some_iff.mp h
    cases heq
    exact (readText_append hr []).1.le
  · obtain ⟨sign, -, heq⟩ := Option.map_eq_some_iff.mp h
    cases heq
    exact le_rfl

def lexFrom : ℕ → List UInt8 → Option (List Token)
  | _, [] => some []
  | 0, _ :: _ => none
  | fuel + 1, c :: s => (next c s).bind fun r => (lexFrom fuel r.2).map (r.1.toList ++ ·)

/-- The tokens of a text, if it has nothing else in it. -/
def lex (s : List UInt8) : Option (List Token) := lexFrom s.length s

theorem lexFrom_fuel {fuel fuel' : ℕ} {s : List UInt8} (h : s.length ≤ fuel)
    (h' : s.length ≤ fuel') : lexFrom fuel s = lexFrom fuel' s := by
  induction fuel generalizing fuel' s with
  | zero =>
      obtain rfl := List.length_eq_zero_iff.mp (Nat.le_zero.mp h)
      simp [lexFrom]
  | succ fuel ih =>
      cases s with
      | nil => simp [lexFrom]
      | cons c s =>
          obtain ⟨fuel', rfl⟩ : ∃ n, fuel' = n + 1 :=
            Nat.exists_eq_succ_of_ne_zero (Nat.ne_of_gt (lt_of_lt_of_le (by simp) h'))
          rw [List.length_cons, Nat.succ_le_succ_iff] at h h'
          simp only [lexFrom]
          cases hnext : next c s with
          | none => rfl
          | some r =>
              have hle := next_shorter (t := r.1) hnext
              simp only [Option.bind_some, ih (hle.trans h) (hle.trans h')]

theorem lex_nil : lex [] = some [] := rfl

theorem lex_cons {c : UInt8} {s rest : List UInt8} {t : Option Token}
    (h : next c s = some (t, rest)) : lex (c :: s) = (lex rest).map (t.toList ++ ·) := by
  unfold lex
  rw [List.length_cons, lexFrom, h, Option.bind_some,
    lexFrom_fuel (next_shorter h) le_rfl]

/-- The piece stands for these tokens, whatever follows it. -/
def Lexes (piece : List UInt8) (ts : List Token) : Prop :=
  ∀ rest, lex (piece ++ rest) = (lex rest).map (ts ++ ·)

/-- What follows does not go on with a name or a number. -/
def Stops (rest : List UInt8) : Prop := ∀ c ∈ rest.head?, isName c = false

/-- The piece stands for these tokens where they stop. -/
def LexesOpen (piece : List UInt8) (ts : List Token) : Prop :=
  ∀ rest, Stops rest → lex (piece ++ rest) = (lex rest).map (ts ++ ·)

theorem Lexes.lex {piece : List UInt8} {ts : List Token} (h : Lexes piece ts) :
    CTokens.lex piece = some ts := by
  have hwhole := h []
  rwa [List.append_nil, lex_nil, Option.map_some, List.append_nil] at hwhole

theorem lexes_nil : Lexes [] [] := by
  intro rest
  simp

theorem Lexes.append {p q : List UInt8} {ts us : List Token} (hp : Lexes p ts) (hq : Lexes q us) :
    Lexes (p ++ q) (ts ++ us) := by
  intro rest
  rw [List.append_assoc, hp, hq, Option.map_map]
  simp [Function.comp_def]

theorem LexesOpen.append {p q : List UInt8} {ts us : List Token} (hp : LexesOpen p ts)
    (hq : Lexes q us) (hne : q ≠ []) (hstops : Stops q) : Lexes (p ++ q) (ts ++ us) := by
  intro rest
  have hstop : Stops (q ++ rest) := by
    rwa [Stops, List.head?_append_of_ne_nil _ hne]
  rw [List.append_assoc, hp _ hstop, hq, Option.map_map]
  simp [Function.comp_def]

/-- The first byte shows that the token ends by itself. -/
def selfEnds (c : UInt8) : Bool := isBlank c || c == 0x22 || isPunct c

theorem every_byte {P : UInt8 → Prop} (h : ∀ n < 256, P (UInt8.ofNat n)) (c : UInt8) : P c := by
  have hc := h c.toNat c.toNat_lt
  rwa [UInt8.ofNat_toNat] at hc

theorem span_append {p : UInt8 → Bool} {s : List UInt8} (h : s.dropWhile p ≠ [])
    (more : List UInt8) : (s ++ more).takeWhile p = s.takeWhile p ∧
      (s ++ more).dropWhile p = s.dropWhile p ++ more := by
  have hlength : (s.takeWhile p).length ≠ s.length := by
    intro heq
    have hsplit := congrArg List.length (List.takeWhile_append_dropWhile (p := p) (l := s))
    rw [List.length_append] at hsplit
    exact h (List.length_eq_zero_iff.mp (by omega))
  refine ⟨?_, ?_⟩
  · rw [List.takeWhile_append, if_neg hlength]
  · rw [List.dropWhile_append, if_neg (by simpa using h)]

/-- A token which ends in the piece is the same in the whole text. -/
theorem next_append {c : UInt8} {s rest : List UInt8} {t : Option Token}
    (h : next c s = some (t, rest)) (hend : rest ≠ [] ∨ selfEnds c = true) (more : List UInt8) :
    next c (s ++ more) = some (t, rest ++ more) := by
  have hletter : isLetter c = true → selfEnds c = false :=
    every_byte (P := fun c => isLetter c = true → selfEnds c = false) (by decide +kernel) c
  have hdigit : isDigit c = true → selfEnds c = false :=
    every_byte (P := fun c => isDigit c = true → selfEnds c = false) (by decide +kernel) c
  have hsign : c = 0x23 ∨ c = 0x2F → selfEnds c = false := by
    intro hc
    rcases hc with rfl | rfl
    · decide
    · decide
  have hplain (hc : (isLetter c || isDigit c || c == 0x22 || isPunct c) = true) :
      ¬(c = 0x23 ∨ c = 0x2F ∧ (s ++ more).head? = some 0x2F) := by
    have hother : c ≠ 0x23 ∧ c ≠ 0x2F := every_byte (P := fun c =>
      (isLetter c || isDigit c || c == 0x22 || isPunct c) = true → c ≠ 0x23 ∧ c ≠ 0x2F)
      (by decide +kernel) c hc
    simp [hother]
  unfold next at h ⊢
  split_ifs at h with hblank hline hlet hdig hquote
  · cases h
    rw [if_pos hblank]
  · cases h
    have hrest := hend.resolve_right (by rw [hsign (hline.imp_right And.left)]; decide)
    have hhead : c = 0x23 ∨ c = 0x2F ∧ (s ++ more).head? = some 0x2F := by
      refine hline.imp_right fun hslash => ⟨hslash.1, ?_⟩
      rw [List.head?_append, hslash.2]
      rfl
    rw [if_neg hblank, if_pos hhead, (span_append hrest more).2]
  · cases h
    have hrest := hend.resolve_right (by rw [hletter hlet]; decide)
    obtain ⟨htake, hdrop⟩ := span_append hrest more
    rw [if_neg hblank, if_neg (hplain (by simp [hlet])), if_pos hlet, htake, hdrop]
  · obtain ⟨n, hn, heq⟩ := Option.map_eq_some_iff.mp h
    cases heq
    have hrest := hend.resolve_right (by rw [hdigit hdig]; decide)
    obtain ⟨htake, hdrop⟩ := span_append hrest more
    rw [if_neg hblank, if_neg (hplain (by simp [hdig])), if_neg hlet, if_pos hdig, htake, hdrop, hn]
    rfl
  · obtain ⟨r, hr, heq⟩ := Option.map_eq_some_iff.mp h
    cases heq
    rw [if_neg hblank, if_neg (hplain (by simp [hquote])), if_neg hlet, if_neg hdig, if_pos hquote,
      (readText_append hr more).2]
    rfl
  · obtain ⟨sign, hsign, heq⟩ := Option.map_eq_some_iff.mp h
    cases heq
    have hpunct : isPunct c = true := by rw [isPunct, hsign]; rfl
    rw [if_neg hblank, if_neg (hplain (by simp [hpunct])), if_neg hlet, if_neg hdig, if_neg hquote,
      hsign]
    rfl

/-- The tokens of a piece whose last token ends in it. -/
def lexClosed : ℕ → List UInt8 → Option (List Token)
  | _, [] => some []
  | 0, _ :: _ => none
  | fuel + 1, c :: s => (next c s).bind fun r =>
      if r.2 ≠ [] ∨ selfEnds c = true then (lexClosed fuel r.2).map (r.1.toList ++ ·) else none

theorem lexes_of_lexClosed {fuel : ℕ} {piece : List UInt8} {ts : List Token}
    (h : lexClosed fuel piece = some ts) : Lexes piece ts := by
  induction fuel generalizing piece ts with
  | zero =>
      cases piece with
      | nil =>
          cases h
          exact lexes_nil
      | cons => cases h
  | succ fuel ih =>
      cases piece with
      | nil =>
          cases h
          exact lexes_nil
      | cons c s =>
          obtain ⟨⟨t, rest⟩, hnext, hrest⟩ := Option.bind_eq_some_iff.mp h
          split_ifs at hrest with hend
          obtain ⟨us, hus, rfl⟩ := Option.map_eq_some_iff.mp hrest
          intro more
          rw [List.cons_append, lex_cons (next_append hnext hend more), ih hus, Option.map_map]
          simp [Function.comp_def]

/-- A fixed piece is lexed by evaluation. -/
theorem Lexes.closed {piece : List UInt8} {ts : List Token}
    (h : lexClosed piece.length piece = some ts) : Lexes piece ts := lexes_of_lexClosed h

/-- A line comment. -/
theorem lexes_comment {s : List UInt8} (hs : ∀ c ∈ s, c ≠ 0x0A) :
    Lexes (0x2F :: 0x2F :: s ++ [0x0A]) [] := by
  intro rest
  have hend : Lexes [0x0A] [] := .closed (by decide +kernel)
  have hall : ∀ c ∈ 0x2F :: s, (c != 0x0A) = true := by
    intro c hc
    rcases List.mem_cons.mp hc with rfl | hmem
    · decide
    · exact bne_iff_ne.mpr (hs c hmem)
  have hdrop : (0x2F :: s ++ 0x0A :: rest).dropWhile (· != 0x0A) = 0x0A :: rest := by
    rw [List.dropWhile_append_of_pos hall]
    rfl
  have hnext : next 0x2F (0x2F :: s ++ 0x0A :: rest) = some (none, 0x0A :: rest) := by
    rw [next, if_neg (by decide), if_pos (Or.inr ⟨rfl, rfl⟩), hdrop]
  have htext : 0x2F :: 0x2F :: s ++ [0x0A] ++ rest = 0x2F :: (0x2F :: s ++ 0x0A :: rest) := by
    simp
  rw [htext, lex_cons hnext]
  exact (congrArg _ (hend rest)).trans (by simp)

/-- A piece which a word may stand in front of. -/
structure Follows (piece : List UInt8) (ts : List Token) : Prop where
  lexes : Lexes piece ts
  ne_nil : piece ≠ []
  stops : Stops piece

def startsApart (piece : List UInt8) : Bool := piece.head?.any fun c => !isName c

theorem startsApart_append {p : List UInt8} (h : startsApart p = true) (q : List UInt8) :
    p ++ q ≠ [] ∧ Stops (p ++ q) := by
  cases p with
  | nil => cases h
  | cons c p =>
      refine ⟨List.cons_ne_nil _ _, ?_⟩
      intro d hd
      cases hd
      simpa [startsApart] using h

theorem Follows.closed {p : List UInt8} {ts : List Token}
    (hp : lexClosed p.length p = some ts) (hstart : startsApart p = true) : Follows p ts := by
  obtain ⟨hne, hstops⟩ := startsApart_append hstart []
  rw [List.append_nil] at hne hstops
  exact ⟨.closed hp, hne, hstops⟩

theorem Follows.append {p q : List UInt8} {ts us : List Token} (hp : Follows p ts)
    (hq : Lexes q us) : Follows (p ++ q) (ts ++ us) := by
  refine ⟨hp.lexes.append hq, List.append_ne_nil_of_left_ne_nil hp.ne_nil q, ?_⟩
  rw [Stops, List.head?_append_of_ne_nil _ hp.ne_nil]
  exact hp.stops

/-- A word between two pieces. -/
theorem LexesOpen.followed {w q : List UInt8} {us vs : List Token} (hw : LexesOpen w us)
    (hq : Follows q vs) : Lexes (w ++ q) (us ++ vs) := hw.append hq.lexes hq.ne_nil hq.stops

/-- Two words with a piece between them. -/
theorem LexesOpen.between {w p q : List UInt8} {us ts vs : List Token} (hw : LexesOpen w us)
    (hp : Follows p ts) (hq : LexesOpen q vs) : LexesOpen (w ++ (p ++ q)) (us ++ (ts ++ vs)) := by
  intro rest hrest
  have hstop : Stops (p ++ (q ++ rest)) := by
    rw [Stops, List.head?_append_of_ne_nil _ hp.ne_nil]
    exact hp.stops
  rw [List.append_assoc, List.append_assoc, hw _ hstop, hp.lexes, hq rest hrest, Option.map_map,
    Option.map_map]
  simp [Function.comp_def]

/-- Words with the same piece between them. -/
theorem LexesOpen.intercalate {A : Type*} {w : A → List UInt8} {ts : A → List Token}
    {sep : List UInt8} {us : List Token} (hsep : Follows sep us) {xs : List A} (hne : xs ≠ [])
    (h : ∀ x ∈ xs, LexesOpen (w x) (ts x)) :
    LexesOpen (sep.intercalate (xs.map w)) ((xs.map ts).intersperse us).flatten := by
  induction xs with
  | nil => exact absurd rfl hne
  | cons x xs ih =>
      have hfirst := h x (by simp)
      cases xs with
      | nil => simpa [List.intercalate] using hfirst
      | cons y ys =>
          have hrest := ih (List.cons_ne_nil y ys) fun z hz => h z (List.mem_cons_of_mem _ hz)
          simpa [List.intercalate] using hfirst.between hsep hrest

/-- Where a word stops. -/
theorem span_of_stops {s rest : List UInt8} (hs : s.all isName = true) (hrest : Stops rest) :
    (s ++ rest).takeWhile isName = s ∧ (s ++ rest).dropWhile isName = rest := by
  have hall : ∀ a ∈ s, isName a = true := List.all_eq_true.mp hs
  rw [List.takeWhile_append_of_pos hall, List.dropWhile_append_of_pos hall]
  cases rest with
  | nil => simp
  | cons c rest =>
      have hstop : isName c = false := hrest c rfl
      simp [hstop]

theorem lexesOpen_name {c : UInt8} {s : List UInt8} (hc : isLetter c = true)
    (hs : s.all isName = true) : LexesOpen (c :: s) [.ident (c :: s)] := by
  intro rest hrest
  have hother : isBlank c = false ∧ c ≠ 0x23 ∧ c ≠ 0x2F :=
    every_byte (P := fun c => isLetter c = true → isBlank c = false ∧ c ≠ 0x23 ∧ c ≠ 0x2F)
      (by decide +kernel) c hc
  obtain ⟨htake, hdrop⟩ := span_of_stops hs hrest
  have hnext : next c (s ++ rest) = some (some (.ident (c :: s)), rest) := by
    unfold next
    rw [if_neg (by simp [hother]), if_neg (by simp [hother]), if_pos hc, htake, hdrop]
  rw [List.cons_append, lex_cons hnext]
  rfl

def digitByte (d : ℕ) : UInt8 := UInt8.ofNat (0x30 + d)

/-- The decimal digits of a number, as `%d` prints them. -/
def printDecimal (n : ℕ) : List UInt8 :=
  if n = 0 then [0x30] else (Nat.digits 10 n).reverse.map digitByte

theorem isDigit_digitByte {d : ℕ} (hd : d < 10) :
    isDigit (digitByte d) = true ∧ (digitByte d).toNat - 0x30 = d ∧
      (digitByte d = 0x30 → d = 0) := by
  interval_cases d
  all_goals decide

theorem decimal_reverse {ds : List ℕ} (h : ∀ d ∈ ds, d < 10) :
    decimal (ds.reverse.map digitByte) = Nat.ofDigits 10 ds := by
  induction ds with
  | nil => rfl
  | cons d ds ih =>
      have hrest := ih fun x hx => h x (List.mem_cons_of_mem _ hx)
      have hvalue := (isDigit_digitByte (h d (by simp))).2.1
      unfold decimal at hrest ⊢
      rw [List.reverse_cons, List.map_append, List.foldl_append, hrest, Nat.ofDigits_cons]
      simp only [List.map_cons, List.map_nil, List.foldl_cons, List.foldl_nil, hvalue]
      omega

theorem digits_of_ten {n d : ℕ} (hd : d ∈ Nat.digits 10 n) : d < 10 :=
  Nat.digits_lt_base (by decide) hd

theorem printDecimal_digits (n : ℕ) : (printDecimal n).all isDigit = true := by
  unfold printDecimal
  split_ifs
  · decide
  · rw [List.all_eq_true]
    intro c hc
    obtain ⟨d, hd, rfl⟩ := List.mem_map.mp hc
    exact (isDigit_digitByte (digits_of_ten (List.mem_reverse.mp hd))).1

theorem readNumber_printDecimal {n : ℕ} (hbound : n < 2 ^ 63) :
    readNumber (printDecimal n) = some n := by
  have hall := printDecimal_digits n
  by_cases hn : n = 0
  · subst hn
    decide
  · have hne : Nat.digits 10 n ≠ [] := Nat.digits_ne_nil_iff_ne_zero.mpr hn
    have hfirst : ((Nat.digits 10 n).reverse.map digitByte).head? ≠ some 0x30 := by
      rw [List.head?_map, List.head?_reverse, List.getLast?_eq_getLast_of_ne_nil hne,
        Option.map_some]
      intro hzero
      have hlast := (isDigit_digitByte (digits_of_ten (List.getLast_mem hne))).2.2
        (Option.some.inj hzero)
      exact Nat.getLast_digit_ne_zero 10 hn hlast
    have hvalue : decimal ((Nat.digits 10 n).reverse.map digitByte) = n := by
      rw [decimal_reverse fun d hd => digits_of_ten hd, Nat.ofDigits_digits]
    rw [printDecimal, if_neg hn] at hall ⊢
    rw [readNumber, hall, bne_iff_ne.mpr hfirst, hvalue, decide_eq_true hbound, Bool.or_true,
      Bool.and_self, Bool.and_self, if_pos rfl]

theorem printDecimal_ne_nil (n : ℕ) : printDecimal n ≠ [] := by
  unfold printDecimal
  split_ifs with hn
  · exact List.cons_ne_nil _ _
  · have hne : Nat.digits 10 n ≠ [] := Nat.digits_ne_nil_iff_ne_zero.mpr hn
    simpa using hne

theorem lexesOpen_number {n : ℕ} (hbound : n < 2 ^ 63) :
    LexesOpen (printDecimal n) [.number n] := by
  intro rest hrest
  have hnumber := readNumber_printDecimal hbound
  have hall := printDecimal_digits n
  cases hword : printDecimal n with
  | nil => exact absurd hword (printDecimal_ne_nil n)
  | cons c s =>
      rw [hword] at hnumber hall
      rw [List.all_cons, Bool.and_eq_true] at hall
      have hother : isBlank c = false ∧ c ≠ 0x23 ∧ c ≠ 0x2F ∧ isLetter c = false :=
        every_byte (P := fun c => isDigit c = true →
          isBlank c = false ∧ c ≠ 0x23 ∧ c ≠ 0x2F ∧ isLetter c = false) (by decide +kernel) c hall.1
      have hname : s.all isName = true := by
        rw [List.all_eq_true] at hall ⊢
        intro d hd
        rw [isName, hall.2 d hd, Bool.or_true]
      obtain ⟨htake, hdrop⟩ := span_of_stops hname hrest
      have hnext : next c (s ++ rest) = some (some (.number n), rest) := by
        unfold next
        rw [if_neg (by simp [hother]), if_neg (by simp [hother]), if_neg (by simp [hother]),
          if_pos hall.1, htake, hdrop, hnumber]
        rfl
      rw [List.cons_append, lex_cons hnext]
      rfl

end BankFinder.CTokens
