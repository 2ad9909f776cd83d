import BankFinder.BootSearch
import BankFinder.HaltingLoop

/-!
# Reading directories to the end

`Read` on a directory delivers one entry after the other. With an entry which is larger than the
buffer it fails, and stays at that entry. The loops of the shim try the same read again, with the
same buffer.
-/

namespace BankFinder.DirectoryScan
open HaltingLoop TaggedNodes DevicePaths BootSearch

variable {H I A : Type}

/-- `FILEINFO_FNAME_OFFS` -/
def fileinfoFnameOffs : ℕ := 80

/-- An entry, and the size of its `EFI_FILE_INFO`. -/
structure DirEntry where
  record : Record
  size : ℕ
  holds : fileinfoFnameOffs + 2 * (record.name.length + 1) ≤ size

/-- What `Read` comes to: an entry, or something which it cannot read. -/
inductive DirItem where
  | entry (e : DirEntry)
  | unreadable

inductive ReadResult where
  | record (r : Record)
  | endOfDirectory
  | bufferTooSmall
  | deviceError

/-- `dir->Read(dir, &sz, buf)`, and what is left to read. -/
def readDir (sz : ℕ) : List DirItem → ReadResult × List DirItem
  | [] => (.endOfDirectory, [])
  | .unreadable :: items => (.deviceError, .unreadable :: items)
  | .entry e :: items =>
      if e.size ≤ sz then (.record e.record, items) else (.bufferTooSmall, .entry e :: items)

/-- The buffers of all three loops. -/
def direntCap : ℕ := 4096

/-- The records which are read before something else happens. -/
def delivered : List DirItem → List Record
  | .entry e :: items => if e.size ≤ direntCap then e.record :: delivered items else []
  | _ => []

/-- A volume, and what lies in its directories from the start. A handle which `SetPosition` does
not accept shows nothing. -/
structure Medium (H I : Type) where
  vol : Volume H I
  items : H → List DirItem
  records : ∀ dir, vol.records dir = delivered (items dir)

/-- A loop over the entries of a directory, with a result which each record may change. It is
taken again while `more` holds, and a record may leave it. -/
def scanTurn (more : A → Bool) (take : A → Record → A ⊕ A) :
    List DirItem × A → (List DirItem × A) ⊕ A
  | (items, a) =>
      if more a then
        match readDir direntCap items with
        | (.bufferTooSmall, items) => .inl (items, a)
        | (.deviceError, _) => .inr a
        | (.endOfDirectory, _) => .inr a
        | (.record r, items) =>
            match take a r with
            | .inl a => .inl (items, a)
            | .inr a => .inr a
      else .inr a

def listRecord (names : List (List UInt16)) (r : Record) :
    List (List UInt16) ⊕ List (List UInt16) :=
  if skipped r.name then .inl names
  else
    let names := names ++ [copyUnits maxDirnameChars [] r.name]
    if maxLevelDirs ≤ names.length then .inr names else .inl names

/-- The loop of `list_child_dirs`. -/
def listTurn := scanTurn (fun _ => true) listRecord

def dots (name : List UInt16) : Bool := name == charsOf "." || name == charsOf ".."

def peekNames : ℕ := 3

/-- The first 12 characters are shown. -/
def peekRecord (names : List (List UInt16)) (r : Record) :
    List (List UInt16) ⊕ List (List UInt16) :=
  if dots r.name then .inl names else .inl (names ++ [copyUnits (12 + 1) [] r.name])

/-- The loop of `find_macos_boot` which looks into the root of a volume. -/
def peekTurn := scanTurn (fun names => decide (names.length < peekNames)) peekRecord

/-- A call of `bfs_find_boot_efi` which has not returned. -/
structure Call (H : Type) where
  cur : H
  left : ℕ
  path : List UInt16
  items : List DirItem

def Medium.call (m : Medium H I) (left : ℕ) (cur : H) (path : List UInt16) : Call H :=
  ⟨cur, left, path, m.items cur⟩

/-- What a call does with a record. The call for a directory comes to lie on top. -/
def walkRecord (m : Medium H I) (cap : ℕ) (c : Call H) (below : List (Call H)) (r : Record) :
    List (Call H) ⊕ Option (List UInt16) :=
  if skipped r.name then .inl (c :: below)
  else if r.isDir then
    match c.left with
    | 0 => .inl (c :: below)
    | left + 1 =>
        if cap ≤ c.path.length + 1 then .inl (c :: below)
        else
          let sub := copyUnits cap (c.path ++ [backslash]) r.name
          match m.vol.openAt c.cur (sub.drop (c.path.length + 1)) with
          | none => .inl (c :: below)
          | some dir => .inl (m.call left dir sub :: c :: below)
  else if isBootEfi r.name then
    .inr (some (copyUnits cap (copyUnits cap c.path [backslash]) r.name))
  else .inl (c :: below)

/-- The loop of `bfs_find_boot_efi`, with the calls which are open. It ends with the path of a
file, or when the first call returns. -/
def walkTurn (m : Medium H I) (cap : ℕ) : List (Call H) → List (Call H) ⊕ Option (List UInt16)
  | [] => .inr none
  | c :: below =>
      match readDir direntCap c.items with
      | (.bufferTooSmall, items) => .inl ({ c with items := items } :: below)
      | (.deviceError, _) => .inl below
      | (.endOfDirectory, _) => .inl below
      | (.record r, items) => walkRecord m cap { c with items := items } below r

/-- Each listed record makes the count larger, and the loop is left at the limit. -/
structure Counts (more : A → Bool) (take : A → Record → A ⊕ A) (count : A → ℕ)
    (listed : Record → Bool) (limit : ℕ) : Prop where
  goes : ∀ a, count a < limit → more a = true
  passed : ∀ a r, listed r = false → take a r = .inl a
  counted : ∀ a r, listed r = true → ∃ a', count a' = count a + 1 ∧
    (take a r = .inr a' ∧ limit ≤ count a' ∨
      take a r = .inl a' ∧ (limit ≤ count a' → more a' = false))

def listedItem (listed : Record → Bool) : DirItem → Bool
  | .entry e => listed e.record
  | .unreadable => false

/-- An entry which does not fit lies behind something which cannot be read, or behind `limit`
entries which are listed. -/
def Guarded (listed : Record → Bool) (limit : ℕ) (items : List DirItem) : Prop :=
  ∀ before e after, items = before ++ .entry e :: after → direntCap < e.size →
    .unreadable ∈ before ∨ limit ≤ before.countP (listedItem listed)

section
variable {listed : Record → Bool} {limit : ℕ} {items : List DirItem} {e : DirEntry}

theorem guarded_nil : Guarded listed limit [] := by
  intro before e after heq
  exact absurd heq.symm (List.append_ne_nil_of_right_ne_nil _ (List.cons_ne_nil _ _))

theorem guarded_unreadable : Guarded listed limit (.unreadable :: items) := by
  intro before e after heq _
  cases before with
  | nil => exact absurd (List.head_eq_of_cons_eq heq) (by simp)
  | cons i before =>
      obtain rfl := List.head_eq_of_cons_eq heq
      exact Or.inl List.mem_cons_self

theorem not_guarded (hlarge : direntCap < e.size) (hlimit : 0 < limit) :
    ¬Guarded listed limit (.entry e :: items) := by
  intro h
  rcases h [] e items rfl hlarge with hmem | hcount
  · exact absurd hmem List.not_mem_nil
  · rw [List.countP_nil] at hcount
    exact absurd hcount (Nat.not_le_of_lt hlimit)

/-- An entry which fits is counted when it is listed. -/
theorem guarded_entry (hfit : e.size ≤ direntCap) {k : ℕ}
    (hk : limit - (if listed e.record then 1 else 0) = k) :
    Guarded listed limit (.entry e :: items) ↔ Guarded listed k items := by
  have hcount (before : List DirItem) : (DirItem.entry e :: before).countP (listedItem listed) =
      before.countP (listedItem listed) + if listed e.record then 1 else 0 :=
    List.countP_cons
  constructor
  · intro h before e' after heq hlarge
    have hbehind := h (.entry e :: before) e' after (by rw [heq]; rfl) hlarge
    rw [hcount] at hbehind
    rcases hbehind with hmem | hcount
    · exact Or.inl ((List.mem_cons.mp hmem).resolve_left (by simp))
    · exact Or.inr (by omega)
  · intro h before e' after heq hlarge
    cases before with
    | nil =>
        obtain rfl := DirItem.entry.inj (List.head_eq_of_cons_eq heq)
        exact absurd hlarge (Nat.not_lt_of_le hfit)
    | cons i before =>
        obtain rfl := List.head_eq_of_cons_eq heq
        rw [hcount]
        rcases h before e' after (List.tail_eq_of_cons_eq heq) hlarge with hmem | hcount
        · exact Or.inl (List.mem_cons_of_mem _ hmem)
        · exact Or.inr (by omega)

theorem guarded_zero : Guarded listed 0 items := fun _ _ _ _ _ => Or.inr (Nat.zero_le _)

end

section
variable {more : A → Bool} {take : A → Record → A ⊕ A} {a a' : A} {items : List DirItem}
variable {e : DirEntry}

theorem halts_of_done (h : more a = false) : Halts (scanTurn more take) (items, a) := by
  refine ⟨a, returns_of_stop ?_⟩
  rw [scanTurn, if_neg (by rw [h]; exact Bool.false_ne_true)]

theorem scanTurn_entry (take : A → Record → A ⊕ A) (items : List DirItem) (h : more a = true)
    (hfit : e.size ≤ direntCap) : scanTurn more take (.entry e :: items, a) =
      match take a e.record with
      | .inl a => .inl (items, a)
      | .inr a => .inr a := by
  simp only [scanTurn, if_pos h, readDir, if_pos hfit]

/-- The read fails, and the next turn makes the same read. -/
theorem scanTurn_stuck (h : more a = true) (hlarge : ¬e.size ≤ direntCap) :
    scanTurn more take (.entry e :: items, a) = .inl (.entry e :: items, a) := by
  simp only [scanTurn, if_pos h, readDir, if_neg hlarge]

variable {count : A → ℕ} {listed : Record → Bool} {limit : ℕ}

/-- A counting loop ends exactly when it never comes to an entry which does not fit. -/
theorem Counts.halts_iff (h : Counts more take count listed limit) (hcount : count a < limit) :
    Halts (scanTurn more take) (items, a) ↔ Guarded listed (limit - count a) items := by
  induction items generalizing a with
  | nil =>
      refine iff_of_true ⟨a, returns_of_stop ?_⟩ guarded_nil
      simp only [scanTurn, if_pos (h.goes a hcount), readDir]
  | cons item items ih =>
      have hmore := h.goes a hcount
      cases item with
      | unreadable =>
          refine iff_of_true ⟨a, returns_of_stop ?_⟩ guarded_unreadable
          simp only [scanTurn, if_pos hmore, readDir]
      | entry e =>
          by_cases hfit : e.size ≤ direntCap
          · have hturn := scanTurn_entry take items hmore hfit
            cases hlisted : listed e.record with
            | false =>
                rw [h.passed a e.record hlisted] at hturn
                rw [guarded_entry hfit (k := limit - count a) (by rw [hlisted]; rfl), ← ih hcount]
                exact (goes_step hturn (goes_refl _ _)).halts_iff
            | true =>
                obtain ⟨a', hnext, hstep⟩ := h.counted a e.record hlisted
                rw [guarded_entry hfit (k := limit - count a') (by rw [hlisted, hnext]; rfl)]
                rcases hstep with ⟨hleave, hfull⟩ | ⟨hgo, hdone⟩
                · rw [hleave] at hturn
                  refine iff_of_true ⟨a', returns_of_stop hturn⟩ ?_
                  rw [Nat.sub_eq_zero_of_le hfull]
                  exact guarded_zero
                · rw [hgo] at hturn
                  refine (goes_step hturn (goes_refl _ _)).halts_iff.trans ?_
                  by_cases hroom : count a' < limit
                  · exact ih hroom
                  · have hfull := Nat.le_of_not_lt hroom
                    refine iff_of_true (halts_of_done (hdone hfull)) ?_
                    rw [Nat.sub_eq_zero_of_le hfull]
                    exact guarded_zero
          · refine iff_of_false (not_halts_of_stuck (scanTurn_stuck hmore hfit)) ?_
            exact not_guarded (Nat.lt_of_not_le hfit) (Nat.sub_pos_of_lt hcount)

end

theorem counts_list : Counts (fun _ => true) listRecord List.length (fun r => !skipped r.name)
    maxLevelDirs where
  goes _ _ := rfl
  passed names r h := if_pos (by simpa using h)
  counted names r h := by
    have hlen : (names ++ [copyUnits maxDirnameChars [] r.name]).length = names.length + 1 :=
      List.length_append
    refine ⟨_, hlen, ?_⟩
    unfold listRecord
    rw [if_neg (by simpa using h)]
    by_cases hfull : maxLevelDirs ≤ (names ++ [copyUnits maxDirnameChars [] r.name]).length
    · exact Or.inl ⟨if_pos hfull, hfull⟩
    · exact Or.inr ⟨if_neg hfull, fun hle => absurd hle hfull⟩

theorem counts_peek : Counts (fun names => decide (names.length < peekNames)) peekRecord List.length
    (fun r => !dots r.name) peekNames where
  goes _ h := decide_eq_true h
  passed names r h := if_pos (by simpa using h)
  counted names r h := by
    refine ⟨names ++ [copyUnits (12 + 1) [] r.name], List.length_append, Or.inr ⟨?_, ?_⟩⟩
    · exact if_neg (by simpa using h)
    · intro hfull
      exact decide_eq_false (Nat.not_lt_of_le hfull)

/-- When the loop of `list_child_dirs` ends, it gives the names of what was delivered. -/
theorem returns_list {items : List DirItem} {names result : List (List UInt16)}
    (h : Returns listTurn (items, names) result) :
    result = listChildDirs (delivered items) names := by
  induction items generalizing names with
  | nil => exact h.unique (returns_of_stop rfl)
  | cons item items ih =>
      cases item with
      | unreadable => exact h.unique (returns_of_stop rfl)
      | entry e =>
          by_cases hfit : e.size ≤ direntCap
          · have hturn : listTurn (.entry e :: items, names) = _ :=
              scanTurn_entry listRecord items rfl hfit
            unfold listRecord at hturn
            rw [delivered, if_pos hfit, listChildDirs]
            by_cases hskip : skipped e.record.name = true
            · rw [if_pos hskip] at hturn ⊢
              exact ih ((returns_go_iff hturn).mp h)
            rw [if_neg hskip] at hturn ⊢
            by_cases hfull :
                maxLevelDirs ≤ (names ++ [copyUnits maxDirnameChars [] e.record.name]).length
            · simp only [if_pos hfull] at hturn ⊢
              exact h.unique (returns_of_stop hturn)
            · simp only [if_neg hfull] at hturn ⊢
              exact ih ((returns_go_iff hturn).mp h)
          · exact absurd ⟨result, h⟩ (not_halts_of_stuck (scanTurn_stuck rfl hfit))

/-- A file `boot.efi`, or an entry which does not fit. -/
inductive Finding where
  | file (path : List UInt16)
  | tooLarge
  deriving DecidableEq

def Finding.toPath : Finding → Option (List UInt16)
  | .file path => some path
  | .tooLarge => none

/-- What a record leads to. -/
def findingsAt (m : Medium H I) (cap : ℕ) (below : Option (H → List UInt16 → List Finding))
    (cur : H) (path : List UInt16) (r : Record) : List Finding :=
  if skipped r.name then []
  else if r.isDir then
    match below with
    | none => []
    | some below =>
        if cap ≤ path.length + 1 then []
        else
          let sub := copyUnits cap (path ++ [backslash]) r.name
          match m.vol.openAt cur (sub.drop (path.length + 1)) with
          | none => []
          | some dir => below dir sub
  else if isBootEfi r.name then [.file (copyUnits cap (copyUnits cap path [backslash]) r.name)]
  else []

/-- A directory is read up to an entry which does not fit or cannot be read. -/
def findingsIn (found : Record → List Finding) : List DirItem → List Finding
  | [] => []
  | .unreadable :: _ => []
  | .entry e :: items =>
      if e.size ≤ direntCap then found e.record ++ findingsIn found items else [.tooLarge]

/-- Below a directory, in the order of the entries, depth first. -/
def Medium.findings (m : Medium H I) (cap : ℕ) : ℕ → H → List UInt16 → List Finding
  | 0, cur, path => findingsIn (findingsAt m cap none cur path) (m.items cur)
  | left + 1, cur, path =>
      findingsIn (findingsAt m cap (some (m.findings cap left)) cur path) (m.items cur)

/-- What the first of these things does to the loop. -/
def ending (fs : List Finding) : Option (Option (Option (List UInt16))) :=
  fs.head?.map fun f => f.toPath.map some

theorem ending_append (fs gs : List Finding) :
    ending (fs ++ gs) = (ending fs).or (ending gs) := by
  cases fs with
  | nil => rfl
  | cons f fs => rfl

section
variable {m : Medium H I} {cap : ℕ}

/-- The calls for the next level do what these findings say, if there is such a level. -/
def Descends (m : Medium H I) (cap : ℕ) : ℕ → Option (H → List UInt16 → List Finding) → Prop
  | 0, none => True
  | left + 1, some below => ∀ dir path rest,
      Leads (walkTurn m cap) (m.call left dir path :: rest) rest (ending (below dir path))
  | _, _ => False

/-- A turn which reads a record, and what follows until the call goes on. -/
theorem leads_record {s : List (Call H)} {c : Call H}
    {below : Option (H → List UInt16 → List Finding)} (hbelow : Descends m cap c.left below)
    (rest : List (Call H)) {r : Record} (hturn : walkTurn m cap s = walkRecord m cap c rest r) :
    Leads (walkTurn m cap) s (c :: rest) (ending (findingsAt m cap below c.cur c.path r)) := by
  unfold findingsAt
  unfold walkRecord at hturn
  by_cases hskip : skipped r.name = true
  · rw [if_pos hskip] at hturn ⊢
    exact leads_go hturn
  rw [if_neg hskip] at hturn ⊢
  by_cases hdir : r.isDir = true
  · rw [if_pos hdir] at hturn ⊢
    cases hleft : c.left with
    | zero =>
        rw [hleft] at hbelow hturn
        cases below with
        | none => exact leads_go hturn
        | some below => exact hbelow.elim
    | succ left =>
        rw [hleft] at hbelow hturn
        cases below with
        | none => exact hbelow.elim
        | some below =>
            by_cases hfull : cap ≤ c.path.length + 1
            · simp only [if_pos hfull] at hturn ⊢
              exact leads_go hturn
            simp only [if_neg hfull] at hturn ⊢
            cases hopen : m.vol.openAt c.cur
                ((copyUnits cap (c.path ++ [backslash]) r.name).drop (c.path.length + 1)) with
            | none =>
                simp only [hopen] at hturn
                exact leads_go hturn
            | some dir =>
                simp only [hopen] at hturn
                exact (hbelow dir _ _).of_goes (goes_step hturn (goes_refl _ _))
  · rw [if_neg hdir] at hturn ⊢
    by_cases hboot : isBootEfi r.name = true
    · rw [if_pos hboot] at hturn ⊢
      exact returns_of_stop hturn
    · rw [if_neg hboot] at hturn ⊢
      exact leads_go hturn

/-- A call from one of its reads on, until it returns. -/
theorem leads_items {left : ℕ} {below : Option (H → List UInt16 → List Finding)}
    (hbelow : Descends m cap left below) (cur : H) (path : List UInt16) (rest : List (Call H))
    (items : List DirItem) :
    Leads (walkTurn m cap) (⟨cur, left, path, items⟩ :: rest) rest
      (ending (findingsIn (findingsAt m cap below cur path) items)) := by
  induction items with
  | nil => exact leads_go rfl
  | cons item items ih =>
      cases item with
      | unreadable => exact leads_go rfl
      | entry e =>
          unfold findingsIn
          by_cases hfit : e.size ≤ direntCap
          · have hturn : walkTurn m cap (⟨cur, left, path, .entry e :: items⟩ :: rest) =
                walkRecord m cap ⟨cur, left, path, items⟩ rest e.record := by
              simp only [walkTurn, readDir, if_pos hfit]
            rw [if_pos hfit, ending_append]
            exact Leads.append (leads_record hbelow rest hturn) ih
          · rw [if_neg hfit]
            refine not_halts_of_stuck ?_
            simp only [walkTurn, readDir, if_neg hfit]

theorem leads_call (left : ℕ) (cur : H) (path : List UInt16) (rest : List (Call H)) :
    Leads (walkTurn m cap) (m.call left cur path :: rest) rest
      (ending (m.findings cap left cur path)) := by
  induction left generalizing cur path rest with
  | zero =>
      exact leads_items (show Descends m cap 0 none from trivial) cur path rest (m.items cur)
  | succ left ih =>
      have hbelow : Descends m cap (left + 1) (some (m.findings cap left)) :=
        fun dir path rest => ih dir path rest
      exact leads_items hbelow cur path rest (m.items cur)

/-- The walk ends exactly when the first thing which it comes upon is a file, or when there is
nothing. -/
theorem walk_halts_iff (left : ℕ) (cur : H) (path : List UInt16) :
    Halts (walkTurn m cap) [m.call left cur path] ↔
      (m.findings cap left cur path).head? ≠ some .tooLarge := by
  have hstop : Halts (walkTurn m cap) [] := ⟨none, returns_of_stop rfl⟩
  rw [(leads_call left cur path []).halts_iff hstop]
  unfold ending
  match (m.findings cap left cur path).head? with
  | none => simp
  | some .tooLarge => simp [Finding.toPath]
  | some (.file path) => simp [Finding.toPath]

/-- The same files are met on the next level. -/
def Meets (below : Option (H → List UInt16 → List Finding))
    (files : Option (H → List UInt16 → List (List UInt16))) : Prop :=
  files = below.map fun found dir path => (found dir path).filterMap Finding.toPath

theorem filterMap_findingsAt {below : Option (H → List UInt16 → List Finding)}
    {files : Option (H → List UInt16 → List (List UInt16))} (h : Meets below files) (cur : H)
    (path : List UInt16) (r : Record) :
    (findingsAt m cap below cur path r).filterMap Finding.toPath =
      metAt m.vol cap cur files path r := by
  rw [Meets] at h
  rw [h]
  unfold findingsAt metAt
  by_cases hskip : skipped r.name = true
  · rw [if_pos hskip, if_pos hskip]
    rfl
  rw [if_neg hskip, if_neg hskip]
  by_cases hdir : r.isDir = true
  · rw [if_pos hdir, if_pos hdir]
    cases below with
    | none => rfl
    | some below =>
        simp only [Option.map_some]
        by_cases hfull : cap ≤ path.length + 1
        · rw [if_pos hfull, if_pos hfull]
          rfl
        rw [if_neg hfull, if_neg hfull]
        cases m.vol.openAt cur
            ((copyUnits cap (path ++ [backslash]) r.name).drop (path.length + 1)) with
        | none => rfl
        | some dir => rfl
  · rw [if_neg hdir, if_neg hdir]
    by_cases hboot : isBootEfi r.name = true
    · rw [if_pos hboot, if_pos hboot]
      rfl
    · rw [if_neg hboot, if_neg hboot]
      rfl

theorem filterMap_findingsIn (found : Record → List Finding) (items : List DirItem) :
    (findingsIn found items).filterMap Finding.toPath =
      (delivered items).flatMap fun r => (found r).filterMap Finding.toPath := by
  induction items with
  | nil => rfl
  | cons item items ih =>
      cases item with
      | unreadable => rfl
      | entry e =>
          unfold findingsIn delivered
          split_ifs
          · rw [List.filterMap_append, ih, List.flatMap_cons]
          · rfl

theorem filterMap_findings (left : ℕ) (cur : H) (path : List UInt16) :
    (m.findings cap left cur path).filterMap Finding.toPath =
      bootFiles m.vol cap left cur path := by
  induction left generalizing cur path with
  | zero =>
      have hnone : Meets none (none : Option (H → List UInt16 → List (List UInt16))) := rfl
      rw [Medium.findings, bootFiles, filterMap_findingsIn, m.records]
      simp only [filterMap_findingsAt hnone]
  | succ left ih =>
      have hmeets : Meets (some (m.findings cap left)) (some (bootFiles m.vol cap left)) := by
        rw [Meets, Option.map_some]
        congr
        funext dir path
        exact (ih dir path).symm
      rw [Medium.findings, bootFiles, filterMap_findingsIn, m.records]
      simp only [filterMap_findingsAt hmeets]

/-- When the walk ends, it gives what it gives on the records which are delivered. -/
theorem returns_walk {left : ℕ} {cur : H} {path : List UInt16} {r : Option (List UInt16)}
    (h : Returns (walkTurn m cap) [m.call left cur path] r) :
    bfsFindBootEfi m.vol cap left cur path = (r.isSome, r.getD path) := by
  have hleads : Leads (walkTurn m cap) [m.call left cur path] []
      (ending (m.findings cap left cur path)) := leads_call left cur path []
  rw [bfsFindBootEfi_eq, ← filterMap_findings]
  match hfound : m.findings cap left cur path with
  | [] =>
      rw [hfound] at hleads
      have hreturns : Returns (walkTurn m cap) [m.call left cur path] none :=
        (Goes.returns_iff hleads).mpr (returns_of_stop rfl)
      rw [h.unique hreturns]
      rfl
  | .tooLarge :: _ =>
      rw [hfound] at hleads
      exact absurd ⟨r, h⟩ hleads
  | .file path' :: _ =>
      rw [hfound] at hleads
      rw [h.unique hleads]
      rfl

end

/-- The loops end exactly when they do not come to an entry which is larger than their buffer. -/
theorem scans_halt_iff (m : Medium H I) :
    (∀ dir, Halts listTurn (m.items dir, []) ↔
      Guarded (fun r => !skipped r.name) maxLevelDirs (m.items dir)) ∧
    (∀ dir, Halts peekTurn (m.items dir, []) ↔
      Guarded (fun r => !dots r.name) peekNames (m.items dir)) ∧
    ∀ cap left cur path, Halts (walkTurn m cap) [m.call left cur path] ↔
      (m.findings cap left cur path).head? ≠ some .tooLarge :=
  ⟨fun _ => counts_list.halts_iff (by decide), fun _ => counts_peek.halts_iff (by decide),
    fun _ left cur path => walk_halts_iff left cur path⟩

/-- A name of 2100 characters. -/
def hugeEntry : DirEntry where
  record := ⟨List.replicate 2100 0x61, false⟩
  size := fileinfoFnameOffs + 2 * (2100 + 1)
  holds := by rw [List.length_replicate]

def hugeMedium : Medium Unit Unit where
  vol := ⟨(), none, fun _ _ => none, fun _ => [], fun _ => none, fun _ _ => none, fun _ => none⟩
  items _ := [.entry hugeEntry]
  records _ := rfl

theorem huge_entry_hangs : ¬Halts listTurn (hugeMedium.items (), []) ∧
    ¬Halts peekTurn (hugeMedium.items (), []) ∧
      ¬Halts (walkTurn hugeMedium fullPathCap) [hugeMedium.call maxDepth () []] := by
  have hlarge : ¬hugeEntry.size ≤ direntCap := by decide
  refine ⟨?_, ?_, ?_⟩
  · exact not_halts_of_stuck (scanTurn_stuck rfl hlarge)
  · exact not_halts_of_stuck (scanTurn_stuck rfl hlarge)
  · exact not_halts_of_stuck rfl

end BankFinder.DirectoryScan
