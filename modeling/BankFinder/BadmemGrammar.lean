import BankFinder.BadmemLines

/-!
# The grammar of a line

A region line and a chip line as texts, with nothing said about a cursor, and the proof
that a line gives a region or a chip exactly when it is one. Numbers have no bound in the
grammar; the parser keeps their value modulo 2^64.
-/

namespace BankFinder.BadmemGrammar
open Nvram BootSession BadmemParse BadmemLines

def Blanks (p : List UInt8) : Prop := ∀ c ∈ p, isBlank c = true

/-- Nothing more of the kind `f` follows. -/
def Stops (f : UInt8 → Bool) (p : List UInt8) : Prop := ∀ c ∈ p.head?, f c = false

def Digits (digit : UInt8 → Option UInt8) (ds : List UInt8) : Prop :=
  ds ≠ [] ∧ ∀ c ∈ ds, (digit c).isSome = true

def digitsValue (digit : UInt8 → Option UInt8) (base : ℕ) (ds : List UInt8) : ℕ :=
  ds.foldl (fun val c => val * base + ((digit c).getD 0).toNat) 0

/-- A number as it is written, and its value. -/
inductive Numeral : List UInt8 → ℕ → Prop
  | hex {x : UInt8} {ds : List UInt8} (hx : x = 0x78 ∨ x = 0x58) (hds : Digits hexDigit ds) :
      Numeral (0x30 :: x :: ds) (digitsValue hexDigit 16 ds)
  | dec {ds : List UInt8} (hds : Digits decDigit ds) : Numeral ds (digitsValue decDigit 10 ds)

/-- The end of the line, a carriage return or a comment. -/
def Ends (p : List UInt8) : Prop :=
  p = [] ∨ ∃ more, p = carriageReturn :: more ∨ p = BadmemParse.hash :: more

/-- `addr , len` with blanks where they may stand, and nothing else before the end. -/
inductive RegionLine : List UInt8 → ℕ → ℕ → Prop
  | intro {b₀ n₀ b₁ b₂ n₁ b₃ rest : List UInt8} {addr len : ℕ} (hb₀ : Blanks b₀)
      (hn₀ : Numeral n₀ addr) (hb₁ : Blanks b₁) (hb₂ : Blanks b₂) (hn₁ : Numeral n₁ len)
      (hb₃ : Blanks b₃) (hrest : Ends rest) :
      RegionLine (b₀ ++ (n₀ ++ (b₁ ++ comma :: (b₂ ++ (n₁ ++ (b₃ ++ rest)))))) addr len

/-- A comment which begins with `chip:` and a designator of at most fifteen characters. -/
inductive ChipLine : List UInt8 → List UInt8 → Prop
  | intro {b₀ b₁ kw b₂ d rest : List UInt8} (hb₀ : Blanks b₀) (hb₁ : Blanks b₁)
      (hkw : kw.map asciiLower = ascii "chip:") (hb₂ : Blanks b₂)
      (hd : ∀ c ∈ d, isDesignatorChar c = true) (hlen : 1 ≤ d.length ∧ d.length ≤ 15)
      (hrest : Stops isDesignatorChar rest) :
      ChipLine (b₀ ++ BadmemParse.hash :: (b₁ ++ (kw ++ (b₂ ++ (d ++ rest))))) d

section Runs
variable {f : UInt8 → Bool} {run rest : List UInt8}

theorem dropWhile_stop (h : Stops f rest) : rest.dropWhile f = rest := by
  cases rest with
  | nil => rfl
  | cons c rest => exact List.dropWhile_cons_of_neg (by rw [h c rfl]; exact Bool.false_ne_true)

theorem takeWhile_stop (h : Stops f rest) : rest.takeWhile f = [] := by
  cases rest with
  | nil => rfl
  | cons c rest => exact List.takeWhile_cons_of_neg (by rw [h c rfl]; exact Bool.false_ne_true)

theorem dropWhile_run (hrun : ∀ c ∈ run, f c = true) (h : Stops f rest) :
    (run ++ rest).dropWhile f = rest := by
  rw [List.dropWhile_append_of_pos hrun, dropWhile_stop h]

theorem takeWhile_run (hrun : ∀ c ∈ run, f c = true) (h : Stops f rest) :
    (run ++ rest).takeWhile f = run := by
  rw [List.takeWhile_append_of_pos hrun, takeWhile_stop h, List.append_nil]

theorem stops_dropWhile (f : UInt8 → Bool) (p : List UInt8) : Stops f (p.dropWhile f) := by
  intro c hc
  have hhead := List.head?_dropWhile_not f p
  rw [Option.mem_def.mp hc] at hhead
  exact hhead

/-- Any text is a run and what stops it. -/
theorem exists_run (f : UInt8 → Bool) (p : List UInt8) :
    ∃ run rest, p = run ++ rest ∧ (∀ c ∈ run, f c = true) ∧ Stops f rest :=
  ⟨p.takeWhile f, p.dropWhile f, List.takeWhile_append_dropWhile.symm,
    fun _ hc => List.mem_takeWhile_imp hc, stops_dropWhile f p⟩

end Runs

theorem skipSp_run {b rest : List UInt8} (hb : Blanks b) (h : Stops isBlank rest) :
    skipSp (b ++ rest) = rest := dropWhile_run hb h

theorem exists_blanks (p : List UInt8) :
    ∃ b, p = b ++ skipSp p ∧ Blanks b :=
  ⟨p.takeWhile isBlank, List.takeWhile_append_dropWhile.symm, fun _ hc => List.mem_takeWhile_imp hc⟩

/-- What begins with a byte of a kind without blanks does not begin with a blank. -/
theorem kind_stops {f : UInt8 → Bool} (hspace : f 0x20 = false) (htab : f 0x09 = false)
    {p : List UInt8} (hne : p ≠ []) (hp : ∀ c ∈ p, f c = true) (rest : List UInt8) :
    Stops isBlank (p ++ rest) := by
  cases p with
  | nil => exact absurd rfl hne
  | cons c p =>
      have hc : f c = true := hp c List.mem_cons_self
      rintro c' ⟨⟩
      unfold isBlank
      rw [Bool.or_eq_false_iff, beq_eq_false_iff_ne, beq_eq_false_iff_ne]
      constructor
      · rintro rfl
        exact absurd hc (by rw [hspace]; exact Bool.false_ne_true)
      · rintro rfl
        exact absurd hc (by rw [htab]; exact Bool.false_ne_true)

section Scan
variable {digit : UInt8 → Option UInt8} {push : UInt64 → UInt64 → UInt64} {base : ℕ}

/-- `push` is a step of the positional value, modulo the word size. -/
def Pushes (digit : UInt8 → Option UInt8) (push : UInt64 → UInt64 → UInt64) (base : ℕ) : Prop :=
  ∀ c d, digit c = some d → ∀ val : ℕ,
    push (UInt64.ofNat val) d.toUInt64 = UInt64.ofNat (val * base + d.toNat)

theorem scanDigits_run (hpush : Pushes digit push base) {ds rest : List UInt8}
    (hds : ∀ c ∈ ds, (digit c).isSome = true) (hrest : Stops (fun c => (digit c).isSome) rest)
    (val : ℕ) (ok : Bool) : scanDigits digit push (UInt64.ofNat val) ok (ds ++ rest) =
      ⟨UInt64.ofNat (ds.foldl (fun val c => val * base + ((digit c).getD 0).toNat) val),
        ok || !ds.isEmpty, rest⟩ := by
  induction ds generalizing val ok with
  | nil =>
      rw [List.nil_append, List.foldl_nil, List.isEmpty_nil, Bool.not_true, Bool.or_false]
      cases rest with
      | nil => rfl
      | cons c rest =>
          have hnone : digit c = none := Option.isNone_iff_eq_none.mp
            (Option.isSome_eq_false_iff.mp (hrest c rfl))
          unfold scanDigits
          rw [hnone]
  | cons c ds ih =>
      obtain ⟨hc, hds⟩ := List.forall_mem_cons.mp hds
      obtain ⟨d, hd⟩ := Option.isSome_iff_exists.mp hc
      rw [List.cons_append, List.foldl_cons, hd]
      unfold scanDigits
      rw [hd]
      simp only [hpush c d hd val, ih hds, Option.getD_some]
      simp

end Scan

theorem pushes_dec : Pushes decDigit (fun val d => val * 10 + d) 10 := by
  intro c d _ val
  have hd : d.toUInt64 = UInt64.ofNat d.toNat := by simp
  rw [hd, UInt64.ofNat_add, UInt64.ofNat_mul]
  rfl

theorem hexDigit_lt {c d : UInt8} (h : hexDigit c = some d) : d.toNat < 16 := by
  unfold hexDigit isDigit at h
  split_ifs at h with hdec hlower hupper
  · obtain rfl := Option.some.inj h
    simp only [Bool.and_eq_true, decide_eq_true_eq, UInt8.le_iff_toNat_le] at hdec
    rw [UInt8.toNat_sub]
    simp at hdec ⊢
    omega
  · obtain rfl := Option.some.inj h
    simp only [ge_iff_le, UInt8.le_iff_toNat_le] at hlower
    rw [UInt8.toNat_add, UInt8.toNat_sub]
    simp at hlower ⊢
    omega
  · obtain rfl := Option.some.inj h
    simp only [ge_iff_le, UInt8.le_iff_toNat_le] at hupper
    rw [UInt8.toNat_add, UInt8.toNat_sub]
    simp at hupper ⊢
    omega

theorem pushes_hex : Pushes hexDigit (fun val d => (val <<< 4) ||| d) 16 := by
  intro c d hd val
  have hlt : d.toUInt64.toNat < 16 := by
    rw [UInt8.toNat_toUInt64]
    exact hexDigit_lt hd
  have hpush := AlignedWords.push_nibble val hlt
  rw [UInt8.toNat_toUInt64] at hpush
  exact hpush

theorem scanHex_run {ds rest : List UInt8} (hds : ∀ c ∈ ds, (hexDigit c).isSome = true)
    (hrest : Stops (fun c => (hexDigit c).isSome) rest) :
    scanHex (ds ++ rest) = ⟨UInt64.ofNat (digitsValue hexDigit 16 ds), !ds.isEmpty, rest⟩ :=
  scanDigits_run pushes_hex hds hrest 0 false

theorem scanDec_run {ds rest : List UInt8} (hds : ∀ c ∈ ds, (decDigit c).isSome = true)
    (hrest : Stops (fun c => (decDigit c).isSome) rest) :
    scanDec (ds ++ rest) = ⟨UInt64.ofNat (digitsValue decDigit 10 ds), !ds.isEmpty, rest⟩ :=
  scanDigits_run pushes_dec hds hrest 0 false

/-- A number which is read is written in front of what is left. -/
theorem parseU64_sound {p rest : List UInt8} {val : UInt64} (h : parseU64 p = some (val, rest)) :
    ∃ n k, p = n ++ rest ∧ Numeral n k ∧ val = UInt64.ofNat k := by
  unfold parseU64 at h
  cases hhex : hexPrefixed p with
  | none =>
      obtain ⟨ds, more, rfl, hds, hmore⟩ := exists_run (fun c => (decDigit c).isSome) p
      simp only [hhex, scanDec_run hds hmore] at h
      split_ifs at h with hok
      obtain ⟨rfl, rfl⟩ := Prod.mk.inj (Option.some.inj h)
      have hne : ds ≠ [] := fun hnil => by simp [hnil] at hok
      exact ⟨ds, _, rfl, Numeral.dec ⟨hne, hds⟩, rfl⟩
  | some digits =>
      obtain ⟨x, hx, rfl⟩ := hexPrefixed_some hhex
      obtain ⟨ds, more, rfl, hds, hmore⟩ := exists_run (fun c => (hexDigit c).isSome) digits
      simp only [hhex, scanHex_run hds hmore] at h
      split_ifs at h with hok
      obtain ⟨rfl, rfl⟩ := Prod.mk.inj (Option.some.inj h)
      have hne : ds ≠ [] := fun hnil => by simp [hnil] at hok
      exact ⟨0x30 :: x :: ds, _, rfl, Numeral.hex hx ⟨hne, hds⟩, rfl⟩

/-- No byte of a number may follow. -/
def Follows (p : List UInt8) : Prop :=
  ∀ c ∈ p.head?, hexDigit c = none ∧ decDigit c = none ∧ c ≠ 0x78 ∧ c ≠ 0x58

theorem hexPrefixed_dec {ds rest : List UInt8} (hds : Digits decDigit ds) (h : Follows rest) :
    hexPrefixed (ds ++ rest) = none := by
  obtain ⟨hne, hds⟩ := hds
  cases ds with
  | nil => exact absurd rfl hne
  | cons c ds =>
      cases ds with
      | nil =>
          cases rest with
          | nil => rfl
          | cons x rest =>
              obtain ⟨-, -, hlower, hupper⟩ := h x rfl
              exact if_neg fun hx => hx.2.elim hlower hupper
      | cons x ds =>
          have hx : (decDigit x).isSome = true := hds x (by simp)
          refine if_neg fun hhex => ?_
          rcases hhex.2 with rfl | rfl
          · cases hx
          · cases hx

/-- A number is read to its end. -/
theorem parseU64_complete {n rest : List UInt8} {k : ℕ} (hn : Numeral n k) (h : Follows rest) :
    parseU64 (n ++ rest) = some (UInt64.ofNat k, rest) := by
  unfold parseU64
  cases hn with
  | @hex x ds hx hds =>
      have hstop : Stops (fun c => (hexDigit c).isSome) rest := fun c hc => by simp [(h c hc).1]
      have hhex : hexPrefixed (0x30 :: x :: (ds ++ rest)) = some (ds ++ rest) :=
        if_pos ⟨rfl, hx⟩
      simp only [List.cons_append, hhex, scanHex_run hds.2 hstop]
      simp [hds.1]
  | dec hds =>
      have hstop : Stops (fun c => (decDigit c).isSome) rest := fun c hc => by simp [(h c hc).2.1]
      simp only [hexPrefixed_dec hds h, scanDec_run hds.2 hstop]
      simp [hds.1]

theorem ends_stops {p : List UInt8} (h : Ends p) : Stops isBlank p := by
  rcases h with rfl | ⟨more, rfl | rfl⟩
  · exact fun c hc => absurd hc (Option.not_mem_none c)
  · rintro c ⟨⟩
    rfl
  · rintro c ⟨⟩
    rfl

theorem ends_follows {p : List UInt8} (h : Ends p) : Follows p := by
  rcases h with rfl | ⟨more, rfl | rfl⟩
  · exact fun c hc => absurd hc (Option.not_mem_none c)
  · rintro c ⟨⟩
    exact ⟨rfl, rfl, by decide⟩
  · rintro c ⟨⟩
    exact ⟨rfl, rfl, by decide⟩

/-- Blanks keep a number apart from what follows. -/
theorem blanks_follows {b p : List UInt8} (hb : Blanks b) (h : Follows p) : Follows (b ++ p) := by
  cases b with
  | nil => exact h
  | cons c b =>
      rintro c' ⟨⟩
      have hc : isBlank c = true := hb c List.mem_cons_self
      simp only [isBlank, Bool.or_eq_true, beq_iff_eq] at hc
      rcases hc with rfl | rfl
      · exact ⟨rfl, rfl, by decide⟩
      · exact ⟨rfl, rfl, by decide⟩

theorem numeral_stops {n : List UInt8} {k : ℕ} (hn : Numeral n k) (rest : List UInt8) :
    Stops isBlank (n ++ rest) := by
  cases hn with
  | hex hx hds =>
      rintro c ⟨⟩
      rfl
  | dec hds => exact kind_stops (f := fun c => (decDigit c).isSome) rfl rfl hds.1 hds.2 rest

theorem endsLine_iff {p : List UInt8} (hline : lineFeed ∉ p) : endsLine p = true ↔ Ends p := by
  cases p with
  | nil => exact ⟨fun _ => Or.inl rfl, fun _ => rfl⟩
  | cons c p =>
      have hc : c ≠ lineFeed := fun heq => hline (heq ▸ List.mem_cons_self)
      simp [endsLine, Ends, hc, exists_or]

/-- A region is found at the start of the line's text. -/
theorem parseRegion_sound {p : List UInt8} {range : BadmemRange} (hline : lineFeed ∉ p)
    (h : (parseRegion p).1 = some range) : ∃ n₀ b₁ b₂ n₁ b₃ rest addr len,
      p = n₀ ++ (b₁ ++ comma :: (b₂ ++ (n₁ ++ (b₃ ++ rest)))) ∧ Numeral n₀ addr ∧ Blanks b₁ ∧
      Blanks b₂ ∧ Numeral n₁ len ∧ Blanks b₃ ∧ Ends rest ∧
      range = alignRange (UInt64.ofNat addr) (UInt64.ofNat len) := by
  obtain ⟨_, q, s, _, t, haddr, hsep, hlen, hend, rfl⟩ := parseRegion_some h
  obtain ⟨n₀, addr, rfl, hn₀, rfl⟩ := parseU64_sound haddr
  obtain ⟨n₁, len, hnumber, hn₁, rfl⟩ := parseU64_sound hlen
  obtain ⟨b₁, hq, hb₁⟩ := exists_blanks q
  obtain ⟨b₂, hs, hb₂⟩ := exists_blanks s
  obtain ⟨b₃, ht, hb₃⟩ := exists_blanks t
  have htext : n₀ ++ q = n₀ ++ (b₁ ++ comma :: (b₂ ++ (n₁ ++ (b₃ ++ skipSp t)))) := by
    rw [← ht, ← hnumber, ← hs, ← hsep, ← hq]
  have hmem : lineFeed ∉ skipSp t := fun hmem => hline (by rw [htext]; simp [hmem])
  exact ⟨n₀, b₁, b₂, n₁, b₃, skipSp t, addr, len, htext, hn₀, hb₁, hb₂, hn₁, hb₃,
    (endsLine_iff hmem).mp hend, rfl⟩

theorem parseRegion_complete {n₀ b₁ b₂ n₁ b₃ rest : List UInt8} {addr len : ℕ}
    (hn₀ : Numeral n₀ addr) (hb₁ : Blanks b₁) (hb₂ : Blanks b₂) (hn₁ : Numeral n₁ len)
    (hb₃ : Blanks b₃) (hrest : Ends rest) :
    (parseRegion (n₀ ++ (b₁ ++ comma :: (b₂ ++ (n₁ ++ (b₃ ++ rest)))))).1 =
      some (alignRange (UInt64.ofNat addr) (UInt64.ofNat len)) := by
  have hcomma (p : List UInt8) : Follows (comma :: p) ∧ Stops isBlank (comma :: p) := by
    constructor
    · rintro c ⟨⟩
      exact ⟨rfl, rfl, by decide⟩
    · rintro c ⟨⟩
      rfl
  have haddr := parseU64_complete hn₀ (blanks_follows hb₁ (hcomma (b₂ ++ (n₁ ++ (b₃ ++ rest)))).1)
  have hlen := parseU64_complete hn₁ (blanks_follows hb₃ (ends_follows hrest))
  have hend : endsLine rest = true := by
    rcases hrest with rfl | ⟨more, rfl | rfl⟩
    · rfl
    · rfl
    · rfl
  unfold parseRegion
  simp only [haddr, skipSp_run hb₁ (hcomma _).2, skipSp_run hb₂ (numeral_stops hn₁ _), hlen,
    skipSp_run hb₃ (ends_stops hrest), hend, ne_eq, not_true_eq_false, if_true, if_false]

theorem turnRegion_iff {line : List UInt8} (hline : lineFeed ∉ line) (range : BadmemRange) :
    turnRegion line = some range ↔ ∃ addr len, RegionLine line addr len ∧
      range = alignRange (UInt64.ofNat addr) (UInt64.ofNat len) := by
  unfold turnRegion
  constructor
  · intro h
    obtain ⟨b₀, hb, hb₀⟩ := exists_blanks line
    obtain ⟨n₀, b₁, b₂, n₁, b₃, rest, addr, len, hp, hn₀, hb₁, hb₂, hn₁, hb₃, hrest, hrange⟩ :=
      parseRegion_sound (notMem_of_suffix hline (skipSp_suffix line)) h
    rw [hb, hp]
    exact ⟨addr, len, RegionLine.intro hb₀ hn₀ hb₁ hb₂ hn₁ hb₃ hrest, hrange⟩
  · rintro ⟨addr, len, hregion, rfl⟩
    cases hregion with
    | intro hb₀ hn₀ hb₁ hb₂ hn₁ hb₃ hrest =>
        rw [skipSp_run hb₀ (numeral_stops hn₀ _)]
        exact parseRegion_complete hn₀ hb₁ hb₂ hn₁ hb₃ hrest

theorem matchKeyword_complete (w rest : List UInt8) :
    matchKeyword (w.map asciiLower) (w ++ rest) = some rest := by
  induction w with
  | nil => rfl
  | cons c w ih =>
      rw [List.map_cons, List.cons_append]
      unfold matchKeyword
      rw [if_pos rfl, ih]

theorem parseDesignator_sound {destMax : ℕ} {p d rest : List UInt8}
    (h : parseDesignator destMax p = some (d, rest)) : p = d ++ rest ∧
      (∀ c ∈ d, isDesignatorChar c = true) ∧ (1 ≤ d.length ∧ d.length < destMax) ∧
      Stops isDesignatorChar rest := by
  obtain ⟨run, more, rfl, hrun, hmore⟩ := exists_run isDesignatorChar p
  simp only [parseDesignator, takeWhile_run hrun hmore, List.drop_left] at h
  split_ifs at h with hbad
  obtain ⟨rfl, rfl⟩ := Prod.mk.inj (Option.some.inj h)
  obtain ⟨hne, hfits⟩ := not_or.mp hbad
  have hpos : run ≠ [] := fun hnil => hne (List.isEmpty_iff.mpr hnil)
  exact ⟨rfl, hrun, ⟨List.length_pos_iff.mpr hpos, by omega⟩, hmore⟩

theorem parseDesignator_complete {destMax : ℕ} {d rest : List UInt8}
    (hd : ∀ c ∈ d, isDesignatorChar c = true) (hlen : 1 ≤ d.length ∧ d.length < destMax)
    (hrest : Stops isDesignatorChar rest) :
    parseDesignator destMax (d ++ rest) = some (d, rest) := by
  have hne : d.isEmpty = false := by
    rw [List.isEmpty_eq_false_iff]
    exact List.ne_nil_of_length_pos hlen.1
  simp only [parseDesignator, takeWhile_run hd hrest, List.drop_left]
  rw [if_neg]
  simp only [hne, Bool.false_eq_true, false_or, not_lt]
  omega

theorem designator_stops {d : List UInt8} (hd : ∀ c ∈ d, isDesignatorChar c = true)
    (hpos : 1 ≤ d.length) (rest : List UInt8) : Stops isBlank (d ++ rest) :=
  kind_stops rfl rfl (List.ne_nil_of_length_pos hpos) hd rest

theorem keyword_stops {kw : List UInt8} (hkw : kw.map asciiLower = ascii "chip:")
    (rest : List UInt8) : Stops isBlank (kw ++ rest) := by
  have hne : kw ≠ [] := by
    rintro rfl
    cases hkw
  have hchars : ∀ c ∈ kw, (ascii "chip:").contains (asciiLower c) = true := by
    intro c hc
    rw [List.contains_iff_mem, ← hkw]
    exact List.mem_map_of_mem hc
  exact kind_stops (f := fun c => (ascii "chip:").contains (asciiLower c)) rfl rfl hne hchars rest

theorem commentChip_sound {p : List UInt8} {chip : BadmemChip} (h : commentChip p = some chip) :
    ∃ b₁ kw b₂ d rest, p = b₁ ++ (kw ++ (b₂ ++ (d ++ rest))) ∧ Blanks b₁ ∧
      kw.map asciiLower = ascii "chip:" ∧ Blanks b₂ ∧ (∀ c ∈ d, isDesignatorChar c = true) ∧
      (1 ≤ d.length ∧ d.length ≤ 15) ∧ Stops isDesignatorChar rest ∧ chip = unresolvedChip d := by
  obtain ⟨b₁, hp, hb₁⟩ := exists_blanks p
  unfold commentChip matchChipKeyword at h
  cases hmatch : matchKeyword (ascii "chip:") (skipSp p) with
  | none =>
      rw [hmatch] at h
      cases h
  | some afterKw =>
      rw [hmatch] at h
      obtain ⟨kw, hafter, hkw⟩ := matchKeyword_sound hmatch
      obtain ⟨b₂, hb, hb₂⟩ := exists_blanks afterKw
      obtain ⟨⟨d, rest⟩, hfound, rfl⟩ := Option.map_eq_some_iff.mp h
      obtain ⟨hd, hchars, hlen, hrest⟩ := parseDesignator_sound hfound
      rw [hafter, hb, hd] at hp
      exact ⟨b₁, kw, b₂, d, rest, hp, hb₁, hkw, hb₂, hchars, ⟨hlen.1, Nat.le_of_lt_succ hlen.2⟩,
        hrest, rfl⟩

theorem commentChip_complete {b₁ kw b₂ d rest : List UInt8} (hb₁ : Blanks b₁)
    (hkw : kw.map asciiLower = ascii "chip:") (hb₂ : Blanks b₂)
    (hd : ∀ c ∈ d, isDesignatorChar c = true) (hlen : 1 ≤ d.length ∧ d.length ≤ 15)
    (hrest : Stops isDesignatorChar rest) :
    commentChip (b₁ ++ (kw ++ (b₂ ++ (d ++ rest)))) = some (unresolvedChip d) := by
  have hfits : 1 ≤ d.length ∧ d.length < badmemDesigMax := ⟨hlen.1, Nat.lt_succ_of_le hlen.2⟩
  unfold commentChip matchChipKeyword
  rw [skipSp_run hb₁ (keyword_stops hkw _), ← hkw, matchKeyword_complete]
  simp only
  rw [skipSp_run hb₂ (designator_stops hd hlen.1 rest), parseDesignator_complete hd hfits hrest]
  rfl

theorem turnChip_iff (line : List UInt8) (chip : BadmemChip) :
    turnChip line = some chip ↔ ∃ d, ChipLine line d ∧ chip = unresolvedChip d := by
  unfold turnChip
  constructor
  · intro h
    obtain ⟨b₀, hb, hb₀⟩ := exists_blanks line
    cases hl : skipSp line with
    | nil =>
        rw [hl] at h
        cases h
    | cons c p =>
        rw [hl] at h hb
        simp only at h
        split_ifs at h with hhash
        obtain ⟨b₁, kw, b₂, d, rest, hp, hb₁, hkw, hb₂, hd, hlen, hrest, hchip⟩ :=
          commentChip_sound h
        rw [hb, hhash, hp]
        exact ⟨d, ChipLine.intro hb₀ hb₁ hkw hb₂ hd hlen hrest, hchip⟩
  · rintro ⟨d, hchip, rfl⟩
    cases hchip with
    | @intro b₀ b₁ kw b₂ _ rest hb₀ hb₁ hkw hb₂ hd hlen hrest =>
        have hhash : Stops isBlank (BadmemParse.hash :: (b₁ ++ (kw ++ (b₂ ++ (d ++ rest))))) := by
          rintro c ⟨⟩
          rfl
        rw [skipSp_run hb₀ hhash]
        simp only [if_true]
        exact commentChip_complete hb₁ hkw hb₂ hd hlen hrest

theorem lineRegion_iff {line : List UInt8} (hline : lineFeed ∉ line) (range : BadmemRange) :
    lineRegion line = some range ↔ ∃ addr len, RegionLine line addr len ∧
      range = alignRange (UInt64.ofNat addr) (UInt64.ofNat len) := by
  rw [lineRegion_eq hline]
  exact turnRegion_iff hline range

theorem lineChip_iff {line : List UInt8} (hline : lineFeed ∉ line) (chip : BadmemChip) :
    lineChip line = some chip ↔ ∃ d, ChipLine line d ∧ chip = unresolvedChip d := by
  rw [lineChip_eq hline]
  exact turnChip_iff line chip

end BankFinder.BadmemGrammar
