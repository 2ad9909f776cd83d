import BankFinder.BadmemParse
import BankFinder.BoardTopology
import BankFinder.CDeclarations

/-!
# The generated board table

`scripts/gen-topology.py` turns the board files into the C file with the board profiles. The
model has the text which it writes, byte by byte, and reads it as C declarations. A `char *` is
a text or NULL.
-/

namespace BankFinder.BoardTable
open CTokens CDeclarations Nvram

abbrev Text := Option (List UInt8)

structure PackageDoc where
  designator : Text
  channel : ℤ
  rank : ℤ
  byteLane : ℤ
  chipWidth : Option ℤ
  locationHint : Text
  deriving DecidableEq, Repr

/-- What `load_yaml` gives for a file. -/
structure BoardDoc where
  boardId : List UInt8
  friendlyName : Text
  products : List Text
  chipWidth : Option ℤ
  channels : Option ℤ
  ranksPerChannel : Option ℤ
  packages : List PackageDoc
  deriving DecidableEq, Repr

/-- `C_ESC` -/
def cEsc (c : UInt8) : List UInt8 :=
  if c = 0x5C then ascii "\\\\"
  else if c = 0x22 then ascii "\\\""
  else if c = 0x0A then ascii "\\n"
  else if c = 0x09 then ascii "\\t"
  else [c]

def cstr : Text → List UInt8
  | none => ascii "NULL"
  | some s => ascii "\"" ++ (s.flatMap cEsc ++ ascii "\"")

/-- `%d` -/
def printInt : ℤ → List UInt8
  | .ofNat n => printDecimal n
  | .negSucc n => ascii "-" ++ printDecimal (n + 1)

/-- `"\n".join(lines)` -/
def joinLines (lines : List (List UInt8)) : List UInt8 := [0x0A].intercalate lines

def PackageDoc.width (doc : BoardDoc) (p : PackageDoc) : ℤ :=
  p.chipWidth.getD (doc.chipWidth.getD 8)

def packageLine (doc : BoardDoc) (p : PackageDoc) : List UInt8 :=
  ascii "    \x7b .designator = " ++ cstr p.designator ++
    ascii ", .channel = " ++ printInt p.channel ++
    ascii ", .rank = " ++ printInt p.rank ++
    ascii ", .byte_lane = " ++ printInt p.byteLane ++
    ascii ", .chip_width = " ++ printInt (p.width doc) ++
    ascii ", .location_hint = " ++ cstr p.locationHint ++ ascii " \x7d,"

def prodInit (products : List Text) : List UInt8 :=
  let joined := (ascii ", ").intercalate (products.map cstr)
  if joined = [] then ascii "NULL" else joined

def profileLines (slug : List UInt8) (doc : BoardDoc) : List (List UInt8) :=
  [ascii "static const board_profile_t " ++ slug ++ ascii "_profile = \x7b",
    ascii "    .board_id          = " ++ cstr (some doc.boardId) ++ ascii ",",
    ascii "    .friendly_name     = " ++ cstr doc.friendlyName ++ ascii ",",
    ascii "    .products          = \x7b " ++ prodInit doc.products ++ ascii " \x7d,",
    ascii "    .num_products      = " ++ printDecimal doc.products.length ++ ascii ",",
    ascii "    .package_count     = " ++ printDecimal doc.packages.length ++ ascii ",",
    ascii "    .chip_width        = " ++ printInt (doc.chipWidth.getD 8) ++ ascii ",",
    ascii "    .channels          = " ++ printInt (doc.channels.getD 2) ++ ascii ",",
    ascii "    .ranks_per_channel = " ++ printInt (doc.ranksPerChannel.getD 1) ++ ascii ",",
    ascii "    .packages          = " ++ slug ++ ascii "_packages,",
    ascii "\x7d;",
    []]

def emitProfile (slug : List UInt8) (doc : BoardDoc) : List UInt8 :=
  joinLines ([ascii "static const board_package_t " ++ slug ++ ascii "_packages[] = \x7b"] ++
    doc.packages.map (packageLine doc) ++ [ascii "\x7d;", []] ++ profileLines slug doc)

def isAlnum (c : UInt8) : Bool := isLetter c && c != 0x5F || isDigit c

/-- `re.sub(r"[^A-Za-z0-9]+", "_", s)`, `inRun` behind such a character. -/
def squeeze : Bool → List UInt8 → List UInt8
  | _, [] => []
  | inRun, c :: s =>
      if isAlnum c then c :: squeeze false s
      else if inRun then squeeze true s
      else 0x5F :: squeeze true s

/-- `s.strip("_")` -/
def strip (s : List UInt8) : List UInt8 :=
  ((s.dropWhile (· == 0x5F)).reverse.dropWhile (· == 0x5F)).reverse

def slugify (boardId : List UInt8) : List UInt8 :=
  let s := (strip (squeeze false boardId)).map BadmemParse.asciiLower
  if s.head?.all isDigit then ascii "b_" ++ s else s

def header : List UInt8 :=
  ascii "// SPDX-License-Identifier: GPL-2.0\n" ++
    ascii "// AUTO-GENERATED by scripts/gen-topology.py. DO NOT EDIT.\n" ++
    ascii "// Source: topology/*.yaml\n\n" ++
    ascii "#include \"stdint.h\"\n#include \"board_topology.h\"\n\n"

/-- The files which have a board, in the order of their names. -/
def boards (files : List (List UInt8 × Option BoardDoc)) : List (List UInt8 × BoardDoc) :=
  files.filterMap fun f => f.2.map (f.1, ·)

def BoardDoc.slug (doc : BoardDoc) : List UInt8 := slugify doc.boardId

def tailLines (slugs : List (List UInt8)) : List (List UInt8) :=
  [ascii "const board_profile_t *const board_profiles[] = \x7b"] ++
    slugs.map (fun s => ascii "    &" ++ s ++ ascii "_profile,") ++
    [ascii "\x7d;", ascii "const unsigned board_profile_count = " ++
      printDecimal slugs.length ++ ascii ";", []]

/-- `main`: the text of `board_table.c`. -/
def generate (files : List (List UInt8 × Option BoardDoc)) : List UInt8 :=
  let bodyParts := (boards files).flatMap fun f =>
    [ascii "// ---- from " ++ f.1 ++ ascii " ----", emitProfile f.2.slug f.2]
  header ++ joinLines bodyParts ++ [0x0A] ++
    joinLines (tailLines ((boards files).map fun f => f.2.slug))

def textToken : Text → Token
  | none => .ident (ascii "NULL")
  | some s => .text s

def intTokens : ℤ → List Token
  | .ofNat n => [.number n]
  | .negSucc n => [.punct .minus, .number (n + 1)]

/-- Neither NUL nor a carriage return, which no escape stands for. -/
def PlainText (t : Text) : Prop := ∀ s ∈ t, ∀ c ∈ s, c ≠ 0 ∧ c ≠ 0x0D

/-- The numbers which C has a type for. -/
def FitsLong (n : ℤ) : Prop := n.natAbs < 2 ^ 63

instance (n : ℤ) : Decidable (FitsLong n) := inferInstanceAs (Decidable (_ < _))

theorem cEsc_cases (c : UInt8) :
    (∃ e, cEsc c = [0x5C, e] ∧ escape e = some c) ∨
      cEsc c = [c] ∧ c ≠ 0x22 ∧ c ≠ 0x0A ∧ c ≠ 0x5C := by
  unfold cEsc
  split_ifs with hslash hquote hline htab
  · exact Or.inl ⟨0x5C, rfl, by rw [hslash]; rfl⟩
  · exact Or.inl ⟨0x22, rfl, by rw [hquote]; rfl⟩
  · exact Or.inl ⟨0x6E, rfl, by rw [hline]; rfl⟩
  · exact Or.inl ⟨0x74, rfl, by rw [htab]; rfl⟩
  · exact Or.inr ⟨rfl, hquote, hline, hslash⟩

theorem readText_escaped {s : List UInt8} (hs : ∀ c ∈ s, c ≠ 0 ∧ c ≠ 0x0D)
    (rest : List UInt8) :
    readText false (s.flatMap cEsc ++ 0x22 :: rest) = some (s, rest) := by
  induction s with
  | nil => rfl
  | cons c s ih =>
      have hrest := ih fun d hd => hs d (List.mem_cons_of_mem _ hd)
      obtain ⟨hnul, hreturn⟩ := hs c (by simp)
      rw [List.flatMap_cons, List.append_assoc]
      rcases cEsc_cases c with ⟨e, hesc, he⟩ | ⟨hesc, hquote, hline, hslash⟩
      · rw [hesc, List.cons_append, List.singleton_append, readText_escape he, hrest]
        rfl
      · have hplain : breaksText c = false := by simp [breaksText, hline, hreturn, hnul]
        rw [hesc, List.singleton_append, readText, if_neg hquote, if_neg (by simp [hplain]),
          if_neg hslash, hrest]
        rfl

theorem cstr_lexes {t : Text} (ht : PlainText t) : LexesOpen (cstr t) [textToken t] := by
  cases t with
  | none => exact lexesOpen_name (c := 0x4E) (s := ascii "ULL") (by decide) (by decide)
  | some s =>
      intro rest _
      have hnext : next 0x22 (s.flatMap cEsc ++ 0x22 :: rest) = some (some (.text s), rest) := by
        rw [next, if_neg (by decide), if_neg (by simp), if_neg (by decide), if_neg (by decide),
          if_pos rfl, readText_escaped (ht s rfl)]
        rfl
      have hquoted : cstr (some s) ++ rest = 0x22 :: (s.flatMap cEsc ++ 0x22 :: rest) := by
        rw [cstr, List.append_assoc, List.append_assoc]
        rfl
      rw [hquoted, lex_cons hnext]
      rfl

theorem printInt_lexes {n : ℤ} (hn : FitsLong n) : LexesOpen (printInt n) (intTokens n) := by
  cases n with
  | ofNat n => exact lexesOpen_number hn
  | negSucc n =>
      intro rest hrest
      have hminus : Lexes (ascii "-") [.punct .minus] :=
        .closed (by decide +kernel)
      rw [printInt, List.append_assoc, hminus, lexesOpen_number (n := n + 1) hn rest hrest,
        Option.map_map]
      rfl

def memberTokens (n : String) : List Token := [.punct .dot, .ident (ascii n), .punct .equals]

/-- `joinLines` with the end of the last line. -/
def endLines (lines : List (List UInt8)) : List UInt8 := lines.flatMap (· ++ [0x0A])

theorem joinLines_ended (lines : List (List UInt8)) :
    joinLines (lines ++ [[]]) = endLines lines := by
  induction lines with
  | nil => rfl
  | cons line lines ih =>
      have hcons : joinLines (line :: (lines ++ [[]])) =
          line ++ [0x0A] ++ joinLines (lines ++ [[]]) := by
        cases lines <;> simp [joinLines, List.intercalate]
      rw [List.cons_append, hcons, ih]
      rfl

structure PackageDoc.Plain (doc : BoardDoc) (p : PackageDoc) : Prop where
  designator : PlainText p.designator
  channel : FitsLong p.channel
  rank : FitsLong p.rank
  byteLane : FitsLong p.byteLane
  width : FitsLong (p.width doc)
  locationHint : PlainText p.locationHint

/-- A member as it is initialized: its name, the words and the value. -/
structure Member where
  name : String
  tokens : List Token
  init : Init

def Member.words (m : Member) : List Token := memberTokens m.name ++ m.tokens

def Member.item (m : Member) : Item := (some (ascii m.name), m.init)

def textInit : Text → Init
  | none => .name (ascii "NULL")
  | some s => .text s

def textMember (n : String) (t : Text) : Member := ⟨n, [textToken t], textInit t⟩

def intMember (n : String) (v : ℤ) : Member := ⟨n, intTokens v, .number v⟩

theorem reads_textInit (t : Text) : Reads [textToken t] (textInit t) := by
  cases t with
  | none => exact reads_name _
  | some s => exact reads_text s

theorem reads_intTokens (n : ℤ) : Reads (intTokens n) (.number n) := by
  cases n with
  | ofNat n => exact reads_number n
  | negSucc n => exact reads_negative (n + 1)

/-- The words of the member are its value. -/
def Member.Good (m : Member) : Prop := Reads m.tokens m.init

theorem textMember_good (n : String) (t : Text) : (textMember n t).Good := reads_textInit t

theorem intMember_good (n : String) (v : ℤ) : (intMember n v).Good := reads_intTokens v

theorem Member.Good.item {m : Member} (h : m.Good) : ReadsItem m.words m.item := h.named _

def PackageDoc.members (doc : BoardDoc) (p : PackageDoc) : List Member :=
  [textMember "designator" p.designator, intMember "channel" p.channel, intMember "rank" p.rank,
    intMember "byte_lane" p.byteLane, intMember "chip_width" (p.width doc),
    textMember "location_hint" p.locationHint]

def PackageDoc.init (doc : BoardDoc) (p : PackageDoc) : Init :=
  .braces ((p.members doc).map Member.item)

def PackageDoc.words (doc : BoardDoc) (p : PackageDoc) : List Token :=
  .punct .lbrace ::
    (((p.members doc).map Member.words).intersperse [.punct .comma]).flatten ++ [.punct .rbrace]

theorem PackageDoc.reads (doc : BoardDoc) (p : PackageDoc) : Reads (p.words doc) (p.init doc) := by
  apply ReadsItems.braces
  apply readsItems_intersperse
  intro m hm
  apply Member.Good.item
  simp only [PackageDoc.members, List.mem_cons, List.not_mem_nil, or_false] at hm
  rcases hm with rfl | rfl | rfl | rfl | rfl | rfl
  · exact textMember_good _ _
  · exact intMember_good _ _
  · exact intMember_good _ _
  · exact intMember_good _ _
  · exact intMember_good _ _
  · exact textMember_good _ _

theorem packageLine_lexes {doc : BoardDoc} {p : PackageDoc} (h : p.Plain doc) :
    Lexes (packageLine doc p ++ [0x0A]) (p.words doc ++ [.punct .comma]) := by
  have hlast : Follows (ascii " \x7d," ++ [0x0A]) [.punct .rbrace, .punct .comma] :=
    .closed (by decide +kernel) (by decide)
  have hhint : Follows (ascii ", .location_hint = ")
      (.punct .comma :: memberTokens "location_hint") := .closed (by decide +kernel) (by decide)
  have hwidth : Follows (ascii ", .chip_width = ") (.punct .comma :: memberTokens "chip_width") :=
    .closed (by decide +kernel) (by decide)
  have hlane : Follows (ascii ", .byte_lane = ") (.punct .comma :: memberTokens "byte_lane") :=
    .closed (by decide +kernel) (by decide)
  have hrank : Follows (ascii ", .rank = ") (.punct .comma :: memberTokens "rank") :=
    .closed (by decide +kernel) (by decide)
  have hchannel : Follows (ascii ", .channel = ") (.punct .comma :: memberTokens "channel") :=
    .closed (by decide +kernel) (by decide)
  have hfirst : Lexes (ascii "    \x7b .designator = ")
      (.punct .lbrace :: memberTokens "designator") := .closed (by decide +kernel)
  have hwords : p.words doc ++ [.punct .comma] =
      (.punct .lbrace :: memberTokens "designator") ++ ([textToken p.designator] ++
        ((.punct .comma :: memberTokens "channel") ++ (intTokens p.channel ++
          ((.punct .comma :: memberTokens "rank") ++ (intTokens p.rank ++
            ((.punct .comma :: memberTokens "byte_lane") ++ (intTokens p.byteLane ++
              ((.punct .comma :: memberTokens "chip_width") ++ (intTokens (p.width doc) ++
                ((.punct .comma :: memberTokens "location_hint") ++
                  ([textToken p.locationHint] ++ [.punct .rbrace, .punct .comma]))))))))))) := by
    simp [PackageDoc.words, PackageDoc.members, Member.words, textMember, intMember]
  rw [hwords, packageLine]
  simp only [List.append_assoc]
  apply hfirst.append
  apply (cstr_lexes h.designator).followed
  apply hchannel.append
  apply (printInt_lexes h.channel).followed
  apply hrank.append
  apply (printInt_lexes h.rank).followed
  apply hlane.append
  apply (printInt_lexes h.byteLane).followed
  apply hwidth.append
  apply (printInt_lexes h.width).followed
  apply hhint.append
  exact (cstr_lexes h.locationHint).followed hlast

/-- `NULL` stands for no product. -/
def shownProducts (products : List Text) : List Text := if products = [] then [none] else products

theorem prodInit_eq (products : List Text) :
    prodInit products = (ascii ", ").intercalate ((shownProducts products).map cstr) := by
  unfold prodInit shownProducts
  cases products with
  | nil => rfl
  | cons t ts =>
      have hfirst : cstr t ≠ [] := by
        cases t with
        | none => decide
        | some s => simp [cstr, ascii]
      have hne : (ascii ", ").intercalate ((t :: ts).map cstr) ≠ [] := by
        cases ts with
        | nil => simpa [List.intercalate] using hfirst
        | cons u us => simp [List.intercalate, hfirst]
      rw [if_neg (List.cons_ne_nil t ts)]
      exact if_neg hne

def productWords (products : List Text) : List Token :=
  (((shownProducts products).map fun t => [textToken t]).intersperse [.punct .comma]).flatten

theorem prodInit_lexes {products : List Text} (h : ∀ t ∈ products, PlainText t) :
    LexesOpen (prodInit products) (productWords products) := by
  have hsep : Follows (ascii ", ") [.punct .comma] := .closed (by decide +kernel) (by decide)
  have hne : shownProducts products ≠ [] := by
    unfold shownProducts
    split_ifs with hempty
    · exact List.cons_ne_nil _ _
    · exact hempty
  rw [prodInit_eq]
  apply LexesOpen.intercalate hsep hne
  intro t ht
  apply cstr_lexes
  unfold shownProducts at ht
  split_ifs at ht
  · rw [List.mem_singleton.mp ht]
    intro s hs
    cases hs
  · exact h t ht

def productsMember (products : List Text) : Member :=
  ⟨"products", .punct .lbrace :: productWords products ++ [.punct .rbrace],
    .braces ((shownProducts products).map fun t => (none, textInit t))⟩

theorem productsMember_good (products : List Text) : (productsMember products).Good := by
  apply ReadsItems.braces
  apply readsItems_intersperse
  intro t _
  exact (reads_textInit t).plain

def BoardDoc.members (doc : BoardDoc) : List Member :=
  [textMember "board_id" (some doc.boardId), textMember "friendly_name" doc.friendlyName,
    productsMember doc.products, intMember "num_products" doc.products.length,
    intMember "package_count" doc.packages.length, intMember "chip_width" (doc.chipWidth.getD 8),
    intMember "channels" (doc.channels.getD 2),
    intMember "ranks_per_channel" (doc.ranksPerChannel.getD 1),
    ⟨"packages", [.ident (doc.slug ++ ascii "_packages")], .name (doc.slug ++ ascii "_packages")⟩]

theorem BoardDoc.members_good (doc : BoardDoc) : ∀ m ∈ doc.members, m.Good := by
  intro m hm
  simp only [BoardDoc.members, List.mem_cons, List.not_mem_nil, or_false] at hm
  rcases hm with rfl | rfl | rfl | rfl | rfl | rfl | rfl | rfl | rfl
  · exact textMember_good _ _
  · exact textMember_good _ _
  · exact productsMember_good _
  · exact intMember_good _ _
  · exact intMember_good _ _
  · exact intMember_good _ _
  · exact intMember_good _ _
  · exact intMember_good _ _
  · exact reads_name _

/-- Nothing in the file which C reads otherwise or has no type for. -/
structure BoardDoc.Plain (doc : BoardDoc) : Prop where
  boardId : PlainText (some doc.boardId)
  friendlyName : PlainText doc.friendlyName
  products : ∀ t ∈ doc.products, PlainText t
  productCount : FitsLong doc.products.length
  packageCount : FitsLong doc.packages.length
  chipWidth : FitsLong (doc.chipWidth.getD 8)
  channels : FitsLong (doc.channels.getD 2)
  ranksPerChannel : FitsLong (doc.ranksPerChannel.getD 1)
  packages : ∀ p ∈ doc.packages, p.Plain doc

/-- A line of the profile. -/
theorem memberLine_lexes {p w : List UInt8} {n : String} {us : List Token}
    (hp : Lexes p (memberTokens n)) (hw : LexesOpen w us) :
    Lexes (p ++ w ++ ascii "," ++ [0x0A]) (memberTokens n ++ us ++ [.punct .comma]) := by
  have hcomma : Follows (ascii "," ++ [0x0A]) [.punct .comma] :=
    .closed (by decide +kernel) (by decide)
  rw [List.append_assoc, List.append_assoc, List.append_assoc]
  exact hp.append (hw.followed hcomma)

def IsName (s : List UInt8) : Prop :=
  ∃ c r, s = c :: r ∧ isLetter c = true ∧ r.all isName = true

theorem IsName.append {s : List UInt8} (hs : IsName s) {t : List UInt8}
    (ht : t.all isName = true) : IsName (s ++ t) := by
  obtain ⟨c, r, rfl, hc, hr⟩ := hs
  exact ⟨c, r ++ t, rfl, hc, by rw [List.all_append, hr, ht, Bool.and_true]⟩

theorem IsName.lexes {s : List UInt8} (hs : IsName s) : LexesOpen s [.ident s] := by
  obtain ⟨c, r, rfl, hc, hr⟩ := hs
  exact lexesOpen_name hc hr

theorem squeeze_name {inRun : Bool} {s : List UInt8} {c : UInt8} (hc : c ∈ squeeze inRun s) :
    isName c = true := by
  induction s generalizing inRun with
  | nil => cases hc
  | cons d s ih =>
      unfold squeeze at hc
      split_ifs at hc with halnum
      · rcases List.mem_cons.mp hc with rfl | hrest
        · revert halnum
          simp only [isAlnum, isName, Bool.or_eq_true, Bool.and_eq_true]
          exact fun h => h.imp_left And.left
        · exact ih hrest
      · exact ih hc
      · rcases List.mem_cons.mp hc with rfl | hrest
        · decide
        · exact ih hrest

theorem mem_strip {s : List UInt8} {c : UInt8} (hc : c ∈ strip s) : c ∈ s := by
  have hfront := (List.dropWhile_sublist _).subset (List.mem_reverse.mp hc)
  exact (List.dropWhile_sublist _).subset (List.mem_reverse.mp hfront)

theorem asciiLower_name {c : UInt8} (hc : isName c = true) :
    isName (BadmemParse.asciiLower c) = true :=
  every_byte (P := fun c => isName c = true → isName (BadmemParse.asciiLower c) = true)
    (by decide +kernel) c hc

/-- Every board gets a name of C. -/
theorem slugify_name (boardId : List UInt8) : IsName (slugify boardId) := by
  have hall : ((strip (squeeze false boardId)).map BadmemParse.asciiLower).all isName = true := by
    rw [List.all_map, List.all_eq_true]
    intro c hc
    exact asciiLower_name (squeeze_name (mem_strip hc))
  unfold slugify
  cases hword : (strip (squeeze false boardId)).map BadmemParse.asciiLower with
  | nil => exact ⟨0x62, [0x5F], rfl, by decide, by decide⟩
  | cons c r =>
      rw [hword, List.all_cons, Bool.and_eq_true] at hall
      change IsName (if isDigit c = true then ascii "b_" ++ c :: r else c :: r)
      by_cases hdigit : isDigit c = true
      · rw [if_pos hdigit]
        refine ⟨0x62, 0x5F :: c :: r, rfl, by decide, ?_⟩
        rw [List.all_cons, List.all_cons, hall.1, hall.2]
        rfl
      · rw [if_neg hdigit]
        refine ⟨c, r, rfl, ?_, hall.2⟩
        have hc := hall.1
        rw [isName, Bool.not_eq_true _ |>.mp hdigit, Bool.or_false] at hc
        exact hc

/-- Lines, each of which is read by itself. -/
theorem endLines_lexes {lines : List (List UInt8)} {ts : List (List Token)}
    (h : List.Forall₂ (fun line t => Lexes (line ++ [0x0A]) t) lines ts) :
    Lexes (endLines lines) ts.flatten := by
  induction h with
  | nil => exact lexes_nil
  | cons hline _ ih => exact hline.append ih

theorem emptyLine_lexes : Lexes ([] ++ [0x0A]) [] := .closed (by decide +kernel)

theorem closingLine_lexes :
    Lexes (ascii "\x7d;" ++ [0x0A]) [.punct .rbrace, .punct .semicolon] :=
  .closed (by decide +kernel)

def BoardDoc.packagesDecl (doc : BoardDoc) : Decl where
  exported := false
  type := ascii "board_package_t"
  pointer := false
  name := doc.slug ++ ascii "_packages"
  array := true
  init := .braces (doc.packages.map fun p => (none, p.init doc))

def BoardDoc.profileDecl (doc : BoardDoc) : Decl where
  exported := false
  type := ascii "board_profile_t"
  pointer := false
  name := doc.slug ++ ascii "_profile"
  array := false
  init := .braces (doc.members.map Member.item)

def tableDecl (slugs : List (List UInt8)) : Decl where
  exported := true
  type := ascii "board_profile_t"
  pointer := true
  name := ascii "board_profiles"
  array := true
  init := .braces (slugs.map fun s => (none, .address (s ++ ascii "_profile")))

def countDecl (count : ℕ) : Decl where
  exported := true
  type := ascii "unsigned"
  pointer := false
  name := ascii "board_profile_count"
  array := false
  init := .number count

/-- A line which begins with fixed words and goes on behind a name. -/
theorem nameLine_lexes {p name : List UInt8} {ts us : List Token} (hp : Lexes p ts)
    (hname : IsName name) (suffix q : List UInt8) (hsuffix : suffix.all isName = true)
    (hq : Follows (q ++ [0x0A]) us) :
    Lexes (p ++ name ++ (suffix ++ q) ++ [0x0A]) (ts ++ ([.ident (name ++ suffix)] ++ us)) := by
  have hsplit : p ++ name ++ (suffix ++ q) ++ [0x0A] =
      p ++ ((name ++ suffix) ++ (q ++ [0x0A])) := by simp
  rw [hsplit]
  exact hp.append ((hname.append hsuffix).lexes.followed hq)

/-- The declaration as its lines have it. -/
theorem Decl.Written.lines {d : Decl} {words : List Token} (h : Reads words d.init)
    {lines : List (List UInt8)} {ts : List (List Token)}
    (hlines : List.Forall₂ (fun line t => Lexes (line ++ [0x0A]) t) lines ts)
    (hts : ts.flatten = d.head ++ words ++ [.punct .semicolon]) :
    Declares (endLines lines) [d] := by
  have hlexes := endLines_lexes hlines
  rw [hts] at hlexes
  exact Decl.Written.declares ⟨words, h, rfl⟩ hlexes

theorem packagesDecl_declared {doc : BoardDoc} (h : doc.Plain) :
    Declares (endLines ([ascii "static const board_package_t " ++ doc.slug ++
      ascii "_packages[] = \x7b"] ++ doc.packages.map (packageLine doc) ++ [ascii "\x7d;", []]))
      [doc.packagesDecl] := by
  have hitems : ReadsItems (doc.packages.flatMap (fun p => p.words doc ++ [.punct .comma]) ++
      [.punct .rbrace]) (doc.packages.map fun p => (none, p.init doc)) :=
    readsItems_flatMap fun p _ => (p.reads doc).plain
  have hwords : Lexes (ascii "static const board_package_t ")
      [.ident wordStatic, .ident wordConst, .ident (ascii "board_package_t")] :=
    .closed (by decide +kernel)
  have hbrace : Follows (ascii "[] = \x7b" ++ [0x0A])
      [.punct .lbracket, .punct .rbracket, .punct .equals, .punct .lbrace] :=
    .closed (by decide +kernel) (by decide)
  have hhead := nameLine_lexes hwords (slugify_name doc.boardId) (ascii "_packages")
    (ascii "[] = \x7b") (by decide) hbrace
  have hrows : List.Forall₂ (fun line t => Lexes (line ++ [0x0A]) t)
      (doc.packages.map (packageLine doc))
      (doc.packages.map fun p => p.words doc ++ [.punct .comma]) := by
    rw [List.forall₂_map_left_iff, List.forall₂_map_right_iff, List.forall₂_same]
    exact fun p hp => packageLine_lexes (h.packages p hp)
  refine Decl.Written.lines hitems.braces
    (.cons hhead (List.rel_append hrows (.cons closingLine_lexes (.cons emptyLine_lexes .nil)))) ?_
  simp [Decl.head, BoardDoc.packagesDecl, BoardDoc.slug, List.flatMap_def]

theorem profileDecl_declared {doc : BoardDoc} (h : doc.Plain) :
    Declares (endLines (profileLines doc.slug doc).dropLast) [doc.profileDecl] := by
  have hitems : ReadsItems (doc.members.flatMap (fun m => m.words ++ [.punct .comma]) ++
      [.punct .rbrace]) (doc.members.map Member.item) :=
    readsItems_flatMap fun m hm => (doc.members_good m hm).item
  have hwords : Lexes (ascii "static const board_profile_t ")
      [.ident wordStatic, .ident wordConst, .ident (ascii "board_profile_t")] :=
    .closed (by decide +kernel)
  have hbrace : Follows (ascii " = \x7b" ++ [0x0A]) [.punct .equals, .punct .lbrace] :=
    .closed (by decide +kernel) (by decide)
  have hslug : IsName doc.slug := slugify_name doc.boardId
  have hhead := nameLine_lexes hwords hslug (ascii "_profile") (ascii " = \x7b") (by decide) hbrace
  have hid : Lexes (ascii "    .board_id          = ") (memberTokens "board_id") :=
    .closed (by decide +kernel)
  have hfriendly : Lexes (ascii "    .friendly_name     = ") (memberTokens "friendly_name") :=
    .closed (by decide +kernel)
  have hcount : Lexes (ascii "    .num_products      = ") (memberTokens "num_products") :=
    .closed (by decide +kernel)
  have hpackages : Lexes (ascii "    .package_count     = ") (memberTokens "package_count") :=
    .closed (by decide +kernel)
  have hwidth : Lexes (ascii "    .chip_width        = ") (memberTokens "chip_width") :=
    .closed (by decide +kernel)
  have hchannels : Lexes (ascii "    .channels          = ") (memberTokens "channels") :=
    .closed (by decide +kernel)
  have hranks : Lexes (ascii "    .ranks_per_channel = ") (memberTokens "ranks_per_channel") :=
    .closed (by decide +kernel)
  have htable : Lexes (ascii "    .packages          = ") (memberTokens "packages") :=
    .closed (by decide +kernel)
  have hcomma : Follows (ascii "," ++ [0x0A]) [.punct .comma] :=
    .closed (by decide +kernel) (by decide)
  have hproducts : Lexes (ascii "    .products          = \x7b ")
      (memberTokens "products" ++ [.punct .lbrace]) := .closed (by decide +kernel)
  have hclose : Follows (ascii " \x7d," ++ [0x0A]) [.punct .rbrace, .punct .comma] :=
    .closed (by decide +kernel) (by decide)
  have hlist := hproducts.append ((prodInit_lexes h.products).followed hclose)
  rw [← List.append_assoc, ← List.append_assoc] at hlist
  refine Decl.Written.lines hitems.braces
    (.cons hhead
      (.cons (memberLine_lexes hid (cstr_lexes h.boardId))
      (.cons (memberLine_lexes hfriendly (cstr_lexes h.friendlyName))
      (.cons hlist
      (.cons (memberLine_lexes hcount (printInt_lexes h.productCount))
      (.cons (memberLine_lexes hpackages (printInt_lexes h.packageCount))
      (.cons (memberLine_lexes hwidth (printInt_lexes h.chipWidth))
      (.cons (memberLine_lexes hchannels (printInt_lexes h.channels))
      (.cons (memberLine_lexes hranks (printInt_lexes h.ranksPerChannel))
      (.cons (nameLine_lexes htable hslug (ascii "_packages") (ascii ",") (by decide) hcomma)
      (.cons closingLine_lexes .nil))))))))))) ?_
  simp [Decl.head, BoardDoc.profileDecl, BoardDoc.members, Member.words, productsMember,
    textMember, intMember]

theorem endLines_append (ls ms : List (List UInt8)) :
    endLines (ls ++ ms) = endLines ls ++ endLines ms := List.flatMap_append

theorem emitProfile_declared {doc : BoardDoc} (h : doc.Plain) :
    Declares (emitProfile doc.slug doc) [doc.packagesDecl, doc.profileDecl] := by
  have hlast : profileLines doc.slug doc = (profileLines doc.slug doc).dropLast ++ [[]] := rfl
  rw [emitProfile, hlast, ← List.append_assoc, joinLines_ended, endLines_append]
  exact (packagesDecl_declared h).append (profileDecl_declared h)

theorem joinLines_closed (lines : List (List UInt8)) :
    joinLines lines ++ [0x0A] = if lines = [] then [0x0A] else endLines lines := by
  split_ifs with hempty
  · rw [hempty]
    rfl
  · have hcons (ls : List (List UInt8)) (hne : ls ≠ []) :
        joinLines ls ++ [0x0A] = joinLines (ls ++ [[]]) := by
      induction ls with
      | nil => exact absurd rfl hne
      | cons line ls ih =>
          cases ls with
          | nil => simp [joinLines, List.intercalate]
          | cons next ls =>
              have hrest := ih (List.cons_ne_nil next ls)
              simp only [joinLines, List.intercalate, List.cons_append,
                List.intersperse_cons_cons, List.flatten_cons, List.append_assoc] at hrest ⊢
              rw [hrest]
    rw [hcons lines hempty, joinLines_ended]

/-- The name of a file is on one line. -/
def OneLine (name : List UInt8) : Prop := ∀ c ∈ name, breaksText c = false

theorem header_lexes : Lexes header [] := .closed (by decide +kernel)

theorem commentLine_lexes {name : List UInt8} (h : OneLine name) :
    Lexes (ascii "// ---- from " ++ name ++ ascii " ----" ++ [0x0A]) [] := by
  have hfront : ∀ c ∈ ascii " ---- from ", c ≠ 0x0A := by decide +kernel
  have hback : ∀ c ∈ ascii " ----", c ≠ 0x0A := by decide +kernel
  have hall : ∀ c ∈ ascii " ---- from " ++ name ++ ascii " ----", c ≠ 0x0A := by
    intro c hc
    rw [List.mem_append, List.mem_append] at hc
    rcases hc with (hc | hc) | hc
    · exact hfront c hc
    · intro hline
      have hbreaks := h c hc
      rw [hline] at hbreaks
      cases hbreaks
    · exact hback c hc
  exact lexes_comment hall

theorem body_declared {docs : List (List UInt8 × BoardDoc)}
    (hnames : ∀ f ∈ docs, OneLine f.1) (hplain : ∀ f ∈ docs, f.2.Plain) :
    Declares (endLines (docs.flatMap fun f =>
      [ascii "// ---- from " ++ f.1 ++ ascii " ----", emitProfile f.2.slug f.2]))
      (docs.flatMap fun f => [f.2.packagesDecl, f.2.profileDecl]) := by
  rw [endLines, List.flatMap_assoc]
  apply Declares.flatMap
  intro f hf
  have hcomment := declares_nil (commentLine_lexes (hnames f hf))
  have hprofile := (emitProfile_declared (hplain f hf)).append (declares_nil emptyLine_lexes)
  simpa using hcomment.append hprofile

theorem tableDecl_declared {slugs : List (List UInt8)} (h : ∀ s ∈ slugs, IsName s) :
    Declares (endLines ([ascii "const board_profile_t *const board_profiles[] = \x7b"] ++
      slugs.map (fun s => ascii "    &" ++ s ++ ascii "_profile,") ++ [ascii "\x7d;"]))
      [tableDecl slugs] := by
  have hitems : ReadsItems (slugs.flatMap (fun s =>
      [.punct .amp, .ident (s ++ ascii "_profile")] ++ [.punct .comma]) ++ [.punct .rbrace])
      (slugs.map fun s => (none, .address (s ++ ascii "_profile"))) :=
    readsItems_flatMap fun s _ => (reads_address _).plain
  have hhead : Lexes (ascii "const board_profile_t *const board_profiles[] = \x7b" ++ [0x0A])
      [.ident wordConst, .ident (ascii "board_profile_t"), .punct .star, .ident wordConst,
        .ident (ascii "board_profiles"), .punct .lbracket, .punct .rbracket, .punct .equals,
        .punct .lbrace] := .closed (by decide +kernel)
  have hamp : Lexes (ascii "    &") [.punct .amp] := .closed (by decide +kernel)
  have hcomma : Follows (ascii "," ++ [0x0A]) [.punct .comma] :=
    .closed (by decide +kernel) (by decide)
  have hrows : List.Forall₂ (fun line t => Lexes (line ++ [0x0A]) t)
      (slugs.map fun s => ascii "    &" ++ s ++ ascii "_profile,")
      (slugs.map fun s =>
        [.punct .amp] ++ ([.ident (s ++ ascii "_profile")] ++ [.punct .comma])) := by
    rw [List.forall₂_map_left_iff, List.forall₂_map_right_iff, List.forall₂_same]
    exact fun s hs => nameLine_lexes hamp (h s hs) (ascii "_profile") (ascii ",") (by decide) hcomma
  refine Decl.Written.lines hitems.braces
    (.cons hhead (List.rel_append hrows (.cons closingLine_lexes .nil))) ?_
  simp [Decl.head, tableDecl, List.flatMap_def]

theorem countDecl_declared {n : ℕ} (h : n < 2 ^ 63) :
    Declares (endLines [ascii "const unsigned board_profile_count = " ++ printDecimal n ++
      ascii ";"]) [countDecl n] := by
  have hwords : Lexes (ascii "const unsigned board_profile_count = ")
      [.ident wordConst, .ident (ascii "unsigned"), .ident (ascii "board_profile_count"),
        .punct .equals] := .closed (by decide +kernel)
  have hend : Follows (ascii ";" ++ [0x0A]) [.punct .semicolon] :=
    .closed (by decide +kernel) (by decide)
  have hline := hwords.append ((lexesOpen_number h).followed hend)
  rw [← List.append_assoc, ← List.append_assoc] at hline
  exact Decl.Written.lines (reads_number n) (.cons hline .nil) rfl

/-- What the file declares, in order. -/
def declarations (docs : List BoardDoc) : List Decl :=
  docs.flatMap (fun doc => [doc.packagesDecl, doc.profileDecl]) ++
    [tableDecl (docs.map BoardDoc.slug), countDecl docs.length]

theorem generate_declared {files : List (List UInt8 × Option BoardDoc)}
    (hnames : ∀ f ∈ boards files, OneLine f.1) (hplain : ∀ f ∈ boards files, f.2.Plain)
    (hcount : (boards files).length < 2 ^ 63) :
    readFile (generate files) = some (declarations ((boards files).map Prod.snd)) := by
  have hbody : Declares (joinLines ((boards files).flatMap fun f =>
      [ascii "// ---- from " ++ f.1 ++ ascii " ----", emitProfile f.2.slug f.2]) ++ [0x0A])
      ((boards files).flatMap fun f => [f.2.packagesDecl, f.2.profileDecl]) := by
    rw [joinLines_closed]
    split_ifs with hempty
    · have hnone : boards files = [] := by
        cases hb : boards files with
        | nil => rfl
        | cons f fs =>
            rw [hb] at hempty
            cases hempty
      rw [hnone]
      exact declares_nil emptyLine_lexes
    · exact body_declared hnames hplain
  have htail : Declares (joinLines (tailLines ((boards files).map fun f => f.2.slug)))
      [tableDecl ((boards files).map fun f => f.2.slug), countDecl (boards files).length] := by
    have hslugs : ∀ s ∈ (boards files).map (fun f => f.2.slug), IsName s := by
      intro s hs
      obtain ⟨f, -, rfl⟩ := List.mem_map.mp hs
      exact slugify_name f.2.boardId
    have hlines := (tableDecl_declared hslugs).append (countDecl_declared hcount)
    rw [← endLines_append, ← joinLines_ended] at hlines
    simpa [tailLines] using hlines
  have hwhole := ((declares_nil header_lexes).append hbody).append htail
  have htext : generate files = header ++ (joinLines ((boards files).flatMap fun f =>
      [ascii "// ---- from " ++ f.1 ++ ascii " ----", emitProfile f.2.slug f.2]) ++ [0x0A]) ++
        joinLines (tailLines ((boards files).map fun f => f.2.slug)) := by
    simp [generate]
  rw [htext, hwhole.readFile]
  simp [declarations, List.flatMap_map, Function.comp_def]

end BankFinder.BoardTable
