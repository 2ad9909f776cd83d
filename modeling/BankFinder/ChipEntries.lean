import BankFinder.ChipList
import BankFinder.ChipMask

/-!
# A list of chips with blanks around the names

The text of `BrrBadChips` may hold blanks around each designator. The splitter skips the blanks
in front of one. Those behind it are copied into the designator, up to the size of its field,
and the board table then does not list it.
-/

namespace BankFinder.ChipEntries
open Nvram BootSession BadmemParse BoardTopology ChipList ChipMask

def space : UInt8 := 0x20

/-- A text which fits into `badmem_chip_t.designator` and which a list can hold. -/
@[ext] structure Designator where
  chars : List UInt8
  nonempty : chars ≠ []
  short : chars.length < badmemDesigMax
  plain : ∀ c ∈ chars, isSeparator c = false
  noNul : ∀ c ∈ chars, c ≠ 0
  deriving DecidableEq

/-- A designator with blanks before and behind it. -/
structure Padded where
  before : ℕ
  name : Designator
  after : ℕ

namespace Padded

def text (p : Padded) : List UInt8 :=
  List.replicate p.before space ++ (p.name.chars ++ List.replicate p.after space)

/-- What the splitter copies of the entry. -/
def copied (p : Padded) : List UInt8 :=
  (p.name.chars ++ List.replicate p.after space).take (badmemDesigMax - 1)

end Padded

/-- Texts with commas between them. -/
def commaJoin (texts : List (List UInt8)) : List UInt8 := [comma].intercalate texts

/-- The text of a list. -/
def listText (ps : List Padded) : List UInt8 := commaJoin (ps.map Padded.text)

@[simp] theorem commaJoin_nil : commaJoin [] = [] := rfl

@[simp] theorem commaJoin_singleton (t : List UInt8) : commaJoin [t] = t :=
  List.intercalate_singleton

@[simp] theorem commaJoin_cons_cons (t t' : List UInt8) (texts : List (List UInt8)) :
    commaJoin (t :: t' :: texts) = t ++ comma :: commaJoin (t' :: texts) := by
  unfold commaJoin
  rw [List.intercalate_cons_cons, List.append_assoc]
  rfl

theorem listText_cons_cons (p q : Padded) (ps : List Padded) :
    listText (p :: q :: ps) = p.text ++ comma :: listText (q :: ps) := commaJoin_cons_cons ..

/-- Where no text holds it and it is not the comma, it does not occur. -/
theorem commaJoin_ne {c : UInt8} (hc : c ≠ comma) {texts : List (List UInt8)}
    (h : ∀ t ∈ texts, c ∉ t) : c ∉ commaJoin texts := by
  match texts with
  | [] => exact List.not_mem_nil
  | [t] =>
      rw [commaJoin_singleton]
      exact h t List.mem_cons_self
  | t :: t' :: texts =>
      rw [List.forall_mem_cons] at h
      rw [commaJoin_cons_cons, List.mem_append, List.mem_cons]
      intro hmem
      rcases hmem with hmem | hmem | hmem
      · exact h.1 hmem
      · exact hc hmem
      · exact commaJoin_ne hc h.2 hmem

/-- Every text which is not empty adds to the length. -/
theorem length_le_commaJoin {texts : List (List UInt8)} (h : ∀ t ∈ texts, t ≠ []) :
    texts.length ≤ (commaJoin texts).length := by
  match texts with
  | [] => exact le_rfl
  | [t] =>
      rw [commaJoin_singleton]
      exact List.length_pos_iff.mpr (h t List.mem_cons_self)
  | t :: t' :: texts =>
      rw [List.forall_mem_cons] at h
      have hrest := length_le_commaJoin h.2
      rw [commaJoin_cons_cons]
      simp only [List.length_append, List.length_cons] at hrest ⊢
      omega

theorem Designator.ne_comma (d : Designator) : ∀ c ∈ d.chars, c ≠ comma := by
  intro c hc heq
  have hplain := d.plain c hc
  rw [heq] at hplain
  exact absurd hplain (by decide)

theorem space_ne_comma {n : ℕ} : ∀ c ∈ List.replicate n space, c ≠ comma := by
  intro c hc
  rw [List.eq_of_mem_replicate hc]
  decide

theorem isSeparator_spaces {n : ℕ} : ∀ c ∈ List.replicate n space, isSeparator c = true := by
  intro c hc
  rw [List.eq_of_mem_replicate hc]
  rfl

theorem Padded.length_copied (p : Padded) :
    p.copied.length = min (badmemDesigMax - 1) (p.name.chars.length + p.after) := by
  unfold Padded.copied
  rw [List.length_take, List.length_append, List.length_replicate]

/-- The copy is the name unless blanks follow it and there is room for one of them. -/
theorem Padded.copied_eq_iff (p : Padded) :
    p.copied = p.name.chars ↔ p.after = 0 ∨ p.name.chars.length = badmemDesigMax - 1 := by
  have hshort := p.name.short
  constructor
  · intro h
    have hlen := congrArg List.length h
    rw [p.length_copied] at hlen
    omega
  · intro h
    unfold Padded.copied
    rcases h with hnone | hfull
    · rw [hnone, List.replicate_zero, List.append_nil, List.take_of_length_le (by omega)]
    · rw [← hfull, List.take_left]

/-- The splitter gets nothing from separators. -/
theorem splitDesignators_separators (fuel room : ℕ) {p : List UInt8}
    (h : ∀ c ∈ p, isSeparator c = true) : splitDesignators fuel room p = [] := by
  have hall : p.dropWhile isSeparator = [] := List.dropWhile_eq_nil_iff.mpr h
  cases fuel with
  | zero => rfl
  | succ fuel =>
      unfold splitDesignators
      rw [hall]
      split_ifs <;> rfl

/-- Behind the separators the entry begins with its name. -/
theorem dropWhile_entry {seps rest : List UInt8} (hseps : ∀ c ∈ seps, isSeparator c = true)
    (p : Padded) : (seps ++ (p.text ++ rest)).dropWhile isSeparator =
      (p.name.chars ++ List.replicate p.after space) ++ rest := by
  obtain ⟨c, cs, hchars⟩ := List.exists_cons_of_ne_nil p.name.nonempty
  have hbefore : ∀ c ∈ seps ++ List.replicate p.before space, isSeparator c = true := by
    intro c hc
    rcases List.mem_append.mp hc with hc | hc
    · exact hseps c hc
    · exact isSeparator_spaces c hc
  have hc : isSeparator c = false := p.name.plain c (hchars ▸ List.mem_cons_self)
  unfold Padded.text
  rw [List.append_assoc, ← List.append_assoc seps, List.dropWhile_append_of_pos hbefore,
    hchars, List.cons_append, List.cons_append, List.dropWhile_cons_of_neg (by simp [hc])]

/-- The entry reaches up to the comma, with the blanks behind the name. -/
theorem takeWhile_entry {rest : List UInt8} (p : Padded)
    (hrest : rest = [] ∨ ∃ more, rest = comma :: more) :
    (((p.name.chars ++ List.replicate p.after space) ++ rest).takeWhile (· ≠ comma)) =
      p.name.chars ++ List.replicate p.after space := by
  have hname : ∀ c ∈ p.name.chars ++ List.replicate p.after space, decide (c ≠ comma) = true := by
    intro c hc
    rw [decide_eq_true_iff]
    rcases List.mem_append.mp hc with hc | hc
    · exact p.name.ne_comma c hc
    · exact space_ne_comma c hc
  rw [List.takeWhile_append_of_pos hname]
  rcases hrest with rfl | ⟨more, rfl⟩
  · rw [List.takeWhile_nil, List.append_nil]
  · rw [List.takeWhile_cons_of_neg (by simp), List.append_nil]

theorem Padded.copied_ne_nil (p : Padded) : p.copied ≠ [] := by
  have hlong : 0 < p.name.chars.length := List.length_pos_iff.mpr p.name.nonempty
  rw [← List.length_pos_iff, p.length_copied, badmemDesigMax]
  omega

/-- What is not copied are blanks. -/
theorem drop_entry (p : Padded) (rest : List UInt8) :
    ((p.name.chars ++ List.replicate p.after space) ++ rest).drop p.copied.length =
      List.replicate (p.after - (badmemDesigMax - 1 - p.name.chars.length)) space ++ rest := by
  have hshort := p.name.short
  have hcopied := p.length_copied
  unfold badmemDesigMax at hshort hcopied ⊢
  rw [List.drop_append_of_le_length (by
      rw [List.length_append, List.length_replicate, hcopied]
      omega),
    List.drop_append, List.drop_of_length_le (by omega), List.drop_replicate, List.nil_append,
    hcopied]
  congr 2
  omega

/-- A turn of the splitter at an entry which separators precede. What it leaves of the entry are
blanks, since no more than the name fits into the field. -/
theorem splitDesignators_entry (fuel room : ℕ) {seps rest : List UInt8}
    (hseps : ∀ c ∈ seps, isSeparator c = true) (p : Padded)
    (hrest : rest = [] ∨ ∃ more, rest = comma :: more) :
    splitDesignators (fuel + 1) (room + 1) (seps ++ (p.text ++ rest)) =
      p.copied :: splitDesignators fuel room
        (List.replicate (p.after - (badmemDesigMax - 1 - p.name.chars.length)) space ++ rest) := by
  have hnot : ¬((seps ++ (p.text ++ rest)).isEmpty = true ∨ room + 1 = 0) := by
    simp [Padded.text, p.name.nonempty]
  have hne : ¬p.copied.isEmpty = true := by simpa using p.copied_ne_nil
  have hfold : (p.name.chars ++ List.replicate p.after space).take (badmemDesigMax - 1) =
      p.copied := rfl
  rw [splitDesignators, if_neg hnot]
  simp only [dropWhile_entry hseps p, takeWhile_entry p hrest]
  rw [if_neg (by simp [p.name.nonempty]), hfold, if_neg hne, drop_entry, Nat.add_sub_cancel]

/-- The splitter finds the entries one by one, each with the blanks which still fit. -/
theorem splitDesignators_list (ps : List Padded) {fuel : ℕ} (hfuel : ps.length ≤ fuel)
    (room : ℕ) {seps : List UInt8} (hseps : ∀ c ∈ seps, isSeparator c = true) :
    splitDesignators fuel room (seps ++ listText ps) = (ps.map Padded.copied).take room := by
  induction ps generalizing fuel room seps with
  | nil =>
      rw [List.map_nil, List.take_nil, listText, List.map_nil, commaJoin_nil, List.append_nil,
        splitDesignators_separators fuel room hseps]
  | cons p ps ih =>
      cases fuel with
      | zero => exact absurd hfuel (Nat.not_succ_le_zero _)
      | succ fuel =>
          cases room with
          | zero => simp [splitDesignators]
          | succ room =>
              have hleft := Nat.le_of_succ_le_succ hfuel
              rw [List.map_cons, List.take_succ_cons]
              cases ps with
              | nil =>
                  rw [listText, List.map_singleton, commaJoin_singleton, ← List.append_nil p.text,
                    splitDesignators_entry fuel room hseps p (Or.inl rfl), List.append_nil,
                    splitDesignators_separators fuel room isSeparator_spaces, List.map_nil,
                    List.take_nil]
              | cons q ps =>
                  have hbetween : ∀ k, ∀ c ∈ List.replicate k space ++ [comma],
                      isSeparator c = true := by
                    intro k c hc
                    rcases List.mem_append.mp hc with hc | hc
                    · exact isSeparator_spaces c hc
                    · rw [List.mem_singleton.mp hc]
                      rfl
                  rw [listText_cons_cons,
                    splitDesignators_entry fuel room hseps p (Or.inr ⟨_, rfl⟩), List.append_cons,
                    ih hleft room (hbetween _)]

/-- `BrrBadChips` holds the text, with or without a NUL behind it. -/
def Holds (store : Store) (text : List UInt8) : Prop :=
  ∃ data, store.get? .brr brrVarnameBadchips = some data ∧ data.length < chipBufSize ∧
    cString data = text

theorem Holds.read {store : Store} {text : List UInt8} (h : Holds store text) :
    readBadchipsVariable store = some text := by
  obtain ⟨data, hget, hfits, htext⟩ := h
  have hread := getVariable_fits hget (Nat.le_sub_one_of_lt hfits)
  unfold readBadchipsVariable maskNvramGetAscii
  rw [hread]
  simp [htext]

theorem badchipDesignators_list {store : Store} {ps : List Padded}
    (h : Holds store (listText ps)) (cap : ℕ) :
    badchipDesignators store cap = (ps.map Padded.copied).take cap := by
  unfold badchipDesignators
  rw [h.read]
  have hseps : ∀ c ∈ ([] : List UInt8), isSeparator c = true := by
    intro c hc
    exact absurd hc List.not_mem_nil
  have hcount : ps.length ≤ (listText ps).length := by
    have htexts : ∀ t ∈ ps.map Padded.text, t ≠ [] := by
      intro t ht
      obtain ⟨p, -, rfl⟩ := List.mem_map.mp ht
      simp [Padded.text, p.name.nonempty]
    rw [← List.length_map Padded.text]
    exact length_le_commaJoin htexts
  exact splitDesignators_list ps (Nat.le_succ_of_le hcount) cap hseps

def Listed (profiles : List BoardProfile) (d : Designator) : Prop :=
  ∃ p ∈ profiles, ∃ pkg ∈ p.packages, pkg.designator = d.chars

/-- The designators come out without the blanks, and those of the table are resolved. -/
structure ReadBack (profiles : List BoardProfile) (ps : List Padded)
    (chips : List BadmemChip) : Prop where
  names : chips.map BadmemChip.designator = ps.map fun p => p.name.chars
  resolved : ∀ p ∈ ps, Listed profiles p.name →
    ∃ ce ∈ resolveChipEntries profiles chips,
      ce.designator = p.name.chars ∧ ce.resolved = true

theorem ReadBack.of_names {ps : List Padded} {chips : List BadmemChip}
    (h : chips.map BadmemChip.designator = ps.map fun p => p.name.chars)
    (profiles : List BoardProfile) : ReadBack profiles ps chips := by
  refine ⟨h, ?_⟩
  intro p hp hlisted
  have hmem : p.name.chars ∈ chips.map BadmemChip.designator := by
    rw [h]
    exact List.mem_map_of_mem hp
  obtain ⟨ce, hce, hname⟩ := List.mem_map.mp hmem
  refine ⟨resolveChip profiles ce, List.mem_map_of_mem hce, ?_, ?_⟩
  · rw [resolveChip_designator, hname]
  · exact resolveChip_resolved (hname ▸ hlisted)

theorem designator_readNvramBadchips (store : Store) (cap : ℕ) :
    (readNvramBadchips store cap).map BadmemChip.designator = badchipDesignators store cap := by
  unfold readNvramBadchips
  rw [List.map_map]
  exact List.map_id _

/-- The blanks go unless they follow a name which leaves room for them. -/
theorem readNvramBadchips_readBack_iff (profiles : List BoardProfile) (store : Store)
    (ps : List Padded) (hcount : ps.length ≤ badmemMaxChips) (h : Holds store (listText ps)) :
    ReadBack profiles ps (readNvramBadchips store badmemMaxChips) ↔
      ∀ p ∈ ps, p.after = 0 ∨ p.name.chars.length = badmemDesigMax - 1 := by
  have hread : (readNvramBadchips store badmemMaxChips).map BadmemChip.designator =
      ps.map Padded.copied := by
    rw [designator_readNvramBadchips, badchipDesignators_list h,
      List.take_of_length_le (by rwa [List.length_map])]
  have hnames : ps.map Padded.copied = ps.map (fun p => p.name.chars) ↔
      ∀ p ∈ ps, p.after = 0 ∨ p.name.chars.length = badmemDesigMax - 1 := by
    simp only [List.map_inj_left, Padded.copied_eq_iff]
  rw [← hnames, ← hread]
  exact ⟨ReadBack.names, fun heq => ReadBack.of_names heq profiles⟩

def u2620 : Designator where
  chars := ascii "U2620"
  nonempty := by decide
  short := by decide
  plain := by decide +kernel
  noNul := by decide +kernel

def u2310 : Designator where
  chars := ascii "U2310"
  nonempty := by decide
  short := by decide
  plain := by decide +kernel
  noNul := by decide +kernel

def storeOf (text : List UInt8) : Store := [⟨.brr, brrVarnameBadchips, text⟩]

theorem readBack_blanks_before :
    ReadBack boardProfiles [⟨0, u2620, 0⟩, ⟨2, u2310, 0⟩]
      (readNvramBadchips (storeOf (ascii "U2620,  U2310")) badmemMaxChips) :=
  (readNvramBadchips_readBack_iff boardProfiles (storeOf (ascii "U2620,  U2310"))
    [⟨0, u2620, 0⟩, ⟨2, u2310, 0⟩] (by decide)
    ⟨ascii "U2620,  U2310", by decide, by decide, by decide⟩).mpr (by decide)

/-- The blank in `U2620 ,U2310` stays in the name, and the chip is not found. -/
theorem blank_behind_name_kept :
    ∃ (store : Store) (ps : List Padded), ps.length ≤ badmemMaxChips ∧
      Holds store (listText ps) ∧ Listed boardProfiles u2620 ∧ u2620 ∈ ps.map Padded.name ∧
      (∀ ce ∈ resolveChipEntries boardProfiles (readNvramBadchips store badmemMaxChips),
        ce.resolved = true → ce.designator ≠ u2620.chars) ∧
      ¬ReadBack boardProfiles ps (readNvramBadchips store badmemMaxChips) := by
  refine ⟨storeOf (ascii "U2620 ,U2310"), [⟨0, u2620, 1⟩, ⟨0, u2310, 0⟩], by decide,
    ⟨ascii "U2620 ,U2310", by decide, by decide, by decide⟩, ?_, by decide, by decide, ?_⟩
  · exact ⟨profile82001814a, by decide, package "U2620" 1 6, by decide, rfl⟩
  · intro h
    exact absurd h.names (by decide)

end BankFinder.ChipEntries
