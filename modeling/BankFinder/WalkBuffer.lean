import BankFinder.CandidatePaths
import BankFinder.SearchComplete

/-!
# The path buffer of the walk

`bfs_find_boot_efi` keeps the path of the directory in which it is in one array, which all levels
share. A level writes a name behind its own part, and cuts the array back before the next entry. A
name which does not fit is cut, without a message, both as the name of a directory to open and as
the name of the file which is found.
-/

namespace BankFinder.WalkBuffer
open BoundedCursor FixedBuffer TaggedNodes NamedTrees DevicePaths BootSearch CandidatePaths
open SearchComplete

variable {H I : Type}

/-- The call for the next level. -/
abbrev Descend (H : Type) := H → ℕ → List UInt16 → Except OutOfBounds (Bool × List UInt16)

/-- The loop of `bfs_find_boot_efi` with its stores into `abs_path_buf`. -/
def scanInto (vol : Volume H I) (cap : ℕ) (cur : H) (len : ℕ) (descend : Option (Descend H)) :
    List Record → List UInt16 → Except OutOfBounds (Bool × List UInt16)
  | [], buf => .ok (false, buf)
  | r :: records, buf =>
      if skipped r.name then scanInto vol cap cur len descend records buf
      else if r.isDir then
        match descend with
        | none => scanInto vol cap cur len none records buf
        | some descend =>
            if cap ≤ len + 1 then scanInto vol cap cur len (some descend) records buf
            else do
              let buf ← put buf len backslash
              let (cp, buf) ← putWhile isNul cap buf (len + 1) r.name
              let buf ← put buf cp 0
              match vol.openAt cur (textOf (buf.drop (len + 1))) with
              | none => do
                  let buf ← put buf len 0
                  scanInto vol cap cur len (some descend) records buf
              | some dir => do
                  let found ← descend dir cp buf
                  if found.1 then return found
                  else do
                    let buf ← put found.2 len 0
                    scanInto vol cap cur len (some descend) records buf
      else if isBootEfi r.name then do
        let (pos, buf) ← putBackslash cap buf len
        let (pos, buf) ← putWhile isNul cap buf pos r.name
        let buf ← put buf pos 0
        return (true, buf)
      else scanInto vol cap cur len descend records buf

/-- `bfs_find_boot_efi`, with `max_depth - depth` levels left and `prefix_len` characters in the
array. -/
def bfsInto (vol : Volume H I) (cap : ℕ) : ℕ → Descend H
  | 0, cur, len, buf => scanInto vol cap cur len none (vol.records cur) buf
  | left + 1, cur, len, buf =>
      scanInto vol cap cur len (some (bfsInto vol cap left)) (vol.records cur) buf

/-- The array program gives what the list program gives, and the array holds its path. -/
def Agrees (cap : ℕ) (x : Except OutOfBounds (Bool × List UInt16)) (y : Bool × List UInt16) :
    Prop :=
  ∃ buf, x = .ok (y.1, buf) ∧ Carries cap y.2 buf

theorem length_lt_of_carries {cap : ℕ} {text buf : List UInt16} (h : Carries cap text buf) :
    text.length < cap := by
  have hle := h.begins.length_le
  rw [List.length_append, List.length_singleton] at hle
  omega

/-- `abs_path_buf[saved_len] = 0;` -/
theorem put_back {cap : ℕ} {text more buf : List UInt16} (h : Carries cap (text ++ more) buf) :
    ∃ buf', put buf text.length 0 = .ok buf' ∧ Carries cap text buf' := by
  have hlt := length_lt_of_carries h
  rw [List.length_append] at hlt
  exact Carries.of_put h.begins.shorten.shorten (by omega) fun hmem =>
    h.plain (List.mem_append_left _ hmem)

/-- A directory name behind the path. -/
theorem put_directory {cap : ℕ} {text buf : List UInt16} (h : Carries cap text buf)
    (hroom : ¬cap ≤ text.length + 1) (name : List UInt16) :
    ∃ buf₁ buf₂ buf₃, put buf text.length backslash = .ok buf₁ ∧
      putWhile isNul cap buf₁ (text.length + 1) name =
        .ok ((copyUnits cap (text ++ [backslash]) name).length, buf₂) ∧
      put buf₂ (copyUnits cap (text ++ [backslash]) name).length 0 = .ok buf₃ ∧
      Carries cap (copyUnits cap (text ++ [backslash]) name) buf₃ := by
  obtain ⟨buf₁, h₁, hb₁⟩ := h.begins.shorten.put (by omega) backslash
  have hlen : (text ++ [backslash]).length = text.length + 1 := List.length_append
  have hlt : (text ++ [backslash]).length < cap := by omega
  obtain ⟨buf₂, h₂, hb₂⟩ := putWhile_copyUnits hb₁ hlt name
  have hplain : 0 ∉ copyUnits cap (text ++ [backslash]) name := by
    refine copyUnits_plain ?_ name
    rw [List.mem_append, not_or]
    exact ⟨h.plain, by decide⟩
  obtain ⟨buf₃, h₃, hcarries⟩ := Carries.of_put hb₂ (length_copyUnits_lt name hlt) hplain
  exact ⟨buf₁, buf₂, buf₃, h₁, hlen ▸ h₂, h₃, hcarries⟩

/-- A file name behind the path. -/
theorem put_file {cap : ℕ} {text buf : List UInt16} (h : Carries cap text buf)
    (name : List UInt16) : Agrees cap (do
        let (pos, buf) ← putBackslash cap buf text.length
        let (pos, buf) ← putWhile isNul cap buf pos name
        let buf ← put buf pos 0
        return (true, buf))
      (true, copyUnits cap (copyUnits cap text [backslash]) name) := by
  have hlt := length_lt_of_carries h
  obtain ⟨buf₁, h₁, hb₁⟩ := putBackslash_copyUnits h.begins.shorten hlt
  have hlt₁ := length_copyUnits_lt [backslash] hlt
  obtain ⟨buf₂, h₂, hb₂⟩ := putWhile_copyUnits hb₁ hlt₁ name
  obtain ⟨buf₃, h₃, hcarries⟩ := Carries.of_put hb₂ (length_copyUnits_lt name hlt₁)
    (copyUnits_plain (copyUnits_plain h.plain [backslash]) name)
  refine ⟨buf₃, ?_, hcarries⟩
  simp only [h₁, h₂, h₃, ok_bind]
  rfl

theorem copyUnits_extends {cap : ℕ} {text : List UInt16} (h : text.length + 1 < cap)
    (name : List UInt16) :
    ∃ more, copyUnits cap (text ++ [backslash]) name = text ++ backslash :: more := by
  refine ⟨(textOf name).take (cap - 1 - (text ++ [backslash]).length), ?_⟩
  rw [copyUnits_eq name (by rw [List.length_append, List.length_singleton]; exact h),
    List.append_assoc]
  rfl

/-- What a pointer into the array shows. -/
theorem textOf_drop {cap n : ℕ} {text buf : List UInt16} (h : Carries cap text buf)
    (hn : n ≤ text.length) : textOf (buf.drop n) = text.drop n := by
  obtain ⟨rest, hrest⟩ := h.begins.text
  rw [← hrest, List.append_assoc, List.drop_append_of_le_length hn]
  exact textOf_terminated (fun hmem => h.plain (List.mem_of_mem_drop hmem)) rest

/-- The next level keeps to the array as this one does. It leaves the path when it finds nothing. -/
def LevelAgrees (cap : ℕ) :
    Option (Descend H) → Option (H → List UInt16 → Bool × List UInt16) → Prop
  | none, none => True
  | some into, some descend => ∀ dir text buf, Carries cap text buf →
      Agrees cap (into dir text.length buf) (descend dir text) ∧
        ((descend dir text).1 = false → (descend dir text).2 = text)
  | _, _ => False

/-- A call for a directory, and the rest of the loop when it finds nothing. -/
theorem descend_agrees {cap : ℕ} {text more : List UInt16}
    {call : Except OutOfBounds (Bool × List UInt16)} {found : Bool × List UInt16}
    (hcall : Agrees cap call found ∧ (found.1 = false → found.2 = text ++ more))
    {rest : List UInt16 → Except OutOfBounds (Bool × List UInt16)}
    {rest' : List UInt16 → Bool × List UInt16}
    (hrest : ∀ buf, Carries cap text buf → Agrees cap (rest buf) (rest' text)) :
    Agrees cap (do
        let found ← call
        if found.1 then return found
        else do
          let buf ← put found.2 text.length 0
          rest buf)
      (if found.1 then found else rest' (found.2.take text.length)) := by
  obtain ⟨⟨buf, hrun, hcarries⟩, hkept⟩ := hcall
  simp only [hrun, ok_bind]
  cases hfound : found.1 with
  | true =>
      rw [if_pos rfl, if_pos rfl]
      exact ⟨buf, by rw [hfound]; rfl, hcarries⟩
  | false =>
      rw [hkept hfound] at hcarries ⊢
      obtain ⟨buf', hput, hback⟩ := put_back hcarries
      rw [if_neg Bool.false_ne_true, if_neg Bool.false_ne_true]
      simp only [hput, ok_bind, List.take_left]
      exact hrest buf' hback

theorem scanInto_agrees (vol : Volume H I) {cap : ℕ} (cur : H) {into : Option (Descend H)}
    {descend : Option (H → List UInt16 → Bool × List UInt16)}
    (hlevel : LevelAgrees cap into descend) (records : List Record) {text buf : List UInt16}
    (h : Carries cap text buf) :
    Agrees cap (scanInto vol cap cur text.length into records buf)
      (scanDir vol cap cur descend records text) := by
  induction records generalizing buf with
  | nil => exact ⟨buf, rfl, h⟩
  | cons r records ih =>
      unfold scanInto scanDir
      by_cases hskip : skipped r.name = true
      · rw [if_pos hskip, if_pos hskip]
        exact ih h
      rw [if_neg hskip, if_neg hskip]
      by_cases hdir : r.isDir = true
      · rw [if_pos hdir, if_pos hdir]
        rcases into with _ | into <;> rcases descend with _ | descend
        · exact ih h
        · exact hlevel.elim
        · exact hlevel.elim
        by_cases hfull : cap ≤ text.length + 1
        · simp only [if_pos hfull]
          exact ih h
        obtain ⟨buf₁, buf₂, buf₃, h₁, h₂, h₃, hsub⟩ := put_directory h hfull r.name
        obtain ⟨more, hmore⟩ := copyUnits_extends (Nat.lt_of_not_le hfull) r.name
        have hopened := textOf_drop hsub (n := text.length + 1) (by
          rw [hmore, List.length_append, List.length_cons]
          omega)
        simp only [if_neg hfull, h₁, h₂, h₃, ok_bind, hopened]
        rw [hmore] at hsub ⊢
        cases vol.openAt cur ((text ++ backslash :: more).drop (text.length + 1)) with
        | none =>
            obtain ⟨buf₄, h₄, hback⟩ := put_back hsub
            simp only [h₄, ok_bind, List.take_left]
            exact ih hback
        | some dir => exact descend_agrees (hlevel dir _ _ hsub) fun buf' hback => ih hback
      · rw [if_neg hdir, if_neg hdir]
        by_cases hboot : isBootEfi r.name = true
        · rw [if_pos hboot, if_pos hboot]
          exact put_file h r.name
        · rw [if_neg hboot, if_neg hboot]
          exact ih h

/-- Every store of the walk is inside the array, and the array holds what the list program gives. -/
theorem bfsInto_agrees (vol : Volume H I) {cap : ℕ} (left : ℕ) (cur : H) {text buf : List UInt16}
    (h : Carries cap text buf) :
    Agrees cap (bfsInto vol cap left cur text.length buf)
      (firstOf text (bootFiles vol cap left cur text)) := by
  rw [← bfsFindBootEfi_eq]
  induction left generalizing cur text buf with
  | zero => exact scanInto_agrees vol cur (show LevelAgrees cap none none from trivial) _ h
  | succ left ih =>
      refine scanInto_agrees vol cur ?_ (vol.records cur) h
      intro dir text buf hcarries
      refine ⟨ih dir hcarries, ?_⟩
      intro hfound
      rw [bfsFindBootEfi_eq] at hfound ⊢
      cases hfiles : bootFiles vol cap left dir text with
      | nil => rfl
      | cons path paths =>
          rw [hfiles] at hfound
          exact absurd hfound Bool.false_ne_true.symm

/-- A volume with its tree. The names in a directory differ. -/
structure Mounted (H I : Type) where
  vol : Volume H I
  entries : List (Name × FileTree I)
  handleAt : Place → H
  serves : Serves vol (.node entries) handleAt
  distinct : ∀ place below, FileTree.at (.node entries) place = some (.node below) →
    (below.map fun e => e.1.chars).Nodup

def Mounted.tree (m : Mounted H I) : FileTree I := .node m.entries

def Mounted.entriesAt (m : Mounted H I) (place : Place) : List (Name × FileTree I) :=
  match m.tree.at place with
  | some (.node entries) => entries
  | _ => []

/-- The array, with the path which it holds. -/
structure PathBuffer (cap : ℕ) where
  text : List UInt16
  units : List UInt16
  carries : Carries cap text units

/-- A file `boot.efi` which the walk meets: the place itself, or a file in what was opened as the
place when the last name of the place had been cut. -/
structure Met where
  place : Place
  whole : Bool
  deriving DecidableEq

/-- `abs_path_buf` with room for everything -/
def pathTo (pre : List UInt16) (place : Place) : List UInt16 := pre ++ joinPath backslash place

/-- The files in what opens under the first `room` characters of a name. -/
def Mounted.cutMets (m : Mounted H I) (room : ℕ) (place : Place) (name : List UInt16) : List Met :=
  match m.vol.openAt (m.handleAt place) (name.take room) with
  | none => []
  | some dir => ((m.vol.records dir).filter fun r => !r.isDir && isBootEfi r.name).map fun _ =>
      ⟨place ++ [name.take room], false⟩

/-- The files which an entry of a directory leads to. -/
def Mounted.entryMets (m : Mounted H I) (cap : ℕ) (pre : List UInt16)
    (below : Option (Place → List Met)) (place : Place) (e : Name × FileTree I) : List Met :=
  match e.2 with
  | .leaf _ => if isBootEfi e.1.chars then [⟨place ++ [e.1.chars], true⟩] else []
  | .node _ =>
      match below with
      | none => []
      | some below =>
          if cap ≤ (pathTo pre place).length + 1 then []
          else if (pathTo pre (place ++ [e.1.chars])).length < cap then below (place ++ [e.1.chars])
          else m.cutMets (cap - 1 - ((pathTo pre place).length + 1)) place e.1.chars

/-- The files below a directory in the order in which the walk comes to them. -/
def Mounted.mets (m : Mounted H I) (cap : ℕ) (pre : List UInt16) : ℕ → Place → List Met
  | 0, place => (m.entriesAt place).flatMap (m.entryMets cap pre none place)
  | left + 1, place =>
      (m.entriesAt place).flatMap (m.entryMets cap pre (some (m.mets cap pre left)) place)

theorem pathTo_concat (pre : List UInt16) (place : Place) (name : List UInt16) :
    pathTo pre (place ++ [name]) = pathTo pre place ++ backslash :: name := by
  unfold pathTo
  rw [joinPath_concat, List.append_assoc]

theorem take_append_take {A : Type} (n : ℕ) (l l' : List A) :
    (l.take n ++ l').take n = (l ++ l').take n := by
  rcases Nat.le_total l.length n with hle | hle
  · rw [List.take_of_length_le hle]
  · rw [List.take_append_of_le_length hle, List.take_append_of_le_length, List.take_take,
      Nat.min_self]
    rw [List.length_take_of_le hle]

/-- A copy is what is left of the full text in front of the last cell. -/
theorem copyUnits_take {cap : ℕ} {out src : List UInt16} (hlt : out.length < cap)
    (hplain : 0 ∉ src) : copyUnits cap out src = (out ++ src).take (cap - 1) := by
  have hout : out.take (cap - 1) = out := List.take_of_length_le (by omega)
  rw [copyUnits_eq src hlt, textOf_open hplain, List.take_append, hout]

theorem copyUnits_file {cap : ℕ} {path name : List UInt16} (hlt : path.length < cap)
    (hplain : 0 ∉ name) :
    copyUnits cap (copyUnits cap path [backslash]) name =
      (path ++ backslash :: name).take (cap - 1) := by
  rw [copyUnits_take (length_copyUnits_lt _ hlt) hplain, copyUnits_take hlt (by decide),
    take_append_take, List.append_assoc, List.singleton_append]

theorem isBootEfi_length {name : List UInt16} (h : isBootEfi name = true) : name.length = 8 := by
  have heq : name.map lower = charsOf "boot.efi" := by simpa [isBootEfi] using h
  rw [← List.length_map (f := lower), heq]
  rfl

theorem not_skipped_of_length {name : List UInt16} (h : 2 < name.length) :
    skipped name = false := by
  by_contra hskip
  rw [Bool.not_eq_false, skipped] at hskip
  simp only [Bool.or_eq_true, List.isEmpty_iff, beq_iff_eq] at hskip
  rcases hskip with (rfl | rfl) | rfl <;> exact absurd h (by decide)

section
variable {m : Mounted H I} {cap : ℕ} {pre : List UInt16} {place : Place}

theorem Mounted.entriesAt_eq {entries : List (Name × FileTree I)}
    (h : m.tree.at place = some (.node entries)) : m.entriesAt place = entries := by
  unfold Mounted.entriesAt
  rw [h]

theorem Mounted.at_entry {entries : List (Name × FileTree I)}
    (h : m.tree.at place = some (.node entries)) {e : Name × FileTree I} (he : e ∈ entries) :
    m.tree.at (place ++ [e.1.chars]) = some e.2 := by
  have hdistinct := m.distinct place entries h
  unfold FileTree.at at h ⊢
  rw [lookup_append, h, Option.bind_some, lookup_entry hdistinct he]

/-- Where the path fills the array, the files of the directory itself are met, under the path of
the directory. -/
theorem bootFiles_full (vol : Volume H I) {cap : ℕ} {path : List UInt16}
    (hfull : path.length + 1 = cap) (left : ℕ) (dir : H) :
    bootFiles vol cap left dir path =
      ((vol.records dir).filter fun r => !r.isDir && isBootEfi r.name).map fun _ => path := by
  have hnothing (src : List UInt16) : copyUnits cap path src = path := by
    cases src with
    | nil => rfl
    | cons c src =>
        unfold copyUnits
        rw [if_neg]
        omega
  have hrecord (below : Option (H → List UInt16 → List (List UInt16))) (r : Record) :
      metAt vol cap dir below path r = if !r.isDir && isBootEfi r.name then [path] else [] := by
    unfold metAt
    by_cases hboot : isBootEfi r.name = true
    · have hskip : skipped r.name = false := by
        apply not_skipped_of_length
        rw [isBootEfi_length hboot]
        decide
      cases below <;> cases hdir : r.isDir <;> simp [hskip, hboot, hnothing, hfull.ge]
    · cases below <;> cases hdir : r.isDir <;> simp [hboot, hfull.ge]
  have hlist (below : Option (H → List UInt16 → List (List UInt16))) (records : List Record) :
      records.flatMap (metAt vol cap dir below path) =
        (records.filter fun r => !r.isDir && isBootEfi r.name).map fun _ => path := by
    induction records with
    | nil => rfl
    | cons r records ih =>
        rw [List.flatMap_cons, hrecord, ih, List.filter_cons]
        split_ifs <;> rfl
  cases left with
  | zero => exact hlist none _
  | succ left => exact hlist _ _

/-- What the array holds when a file has been met. -/
def shown (cap : ℕ) (pre : List UInt16) (met : Met) : List UInt16 :=
  (pathTo pre met.place).take (cap - 1)

/-- What the walk can meet on the next level, by handles and by places. -/
def LevelMets (m : Mounted H I) (cap : ℕ) (pre : List UInt16) :
    Option (H → List UInt16 → List (List UInt16)) → Option (Place → List Met) → Prop
  | none, none => True
  | some below, some mets =>
      (∀ place entries, m.tree.at place = some (.node entries) →
        (pathTo pre place).length < cap →
          below (m.handleAt place) (pathTo pre place) = (mets place).map (shown cap pre)) ∧
      ∀ dir path, path.length + 1 = cap → below dir path =
        ((m.vol.records dir).filter fun r => !r.isDir && isBootEfi r.name).map fun _ => path
  | _, _ => False

theorem recordOf_plain (e : Name × FileTree I) : ¬skipped (recordOf e).name = true := by
  rw [recordOf_name, e.1.plain]
  exact Bool.false_ne_true

theorem metAt_file {below : Option (H → List UInt16 → List (List UInt16))}
    {mets : Option (Place → List Met)} (hlt : (pathTo pre place).length < cap)
    {e : Name × FileTree I} {image : Option I} (hfile : e.2 = .leaf image) :
    metAt m.vol cap (m.handleAt place) below (pathTo pre place) (recordOf e) =
      (m.entryMets cap pre mets place e).map (shown cap pre) := by
  have hdir : ¬(recordOf e).isDir = true := by
    rw [recordOf, hfile]
    exact Bool.false_ne_true
  unfold metAt Mounted.entryMets
  rw [if_neg (recordOf_plain e), if_neg hdir, recordOf_name, hfile]
  by_cases hboot : isBootEfi e.1.chars = true
  · rw [if_pos hboot, if_pos hboot, copyUnits_file hlt e.1.noNul, ← pathTo_concat]
    rfl
  · rw [if_neg hboot, if_neg hboot]
    rfl

/-- The array behind the name of a directory, and the name which is opened. -/
theorem copyUnits_directory (hroom : ¬cap ≤ (pathTo pre place).length + 1) (n : Name) :
    ∃ cut, cut = n.chars.take (cap - 1 - ((pathTo pre place).length + 1)) ∧
      copyUnits cap (pathTo pre place ++ [backslash]) n.chars = pathTo pre (place ++ [cut]) ∧
      (pathTo pre (place ++ [cut])).drop ((pathTo pre place).length + 1) = cut := by
  have hlen : (pathTo pre place ++ [backslash]).length = (pathTo pre place).length + 1 :=
    List.length_append
  refine ⟨_, rfl, ?_, ?_⟩
  · rw [copyUnits_eq _ (by omega), textOf_open n.noNul, pathTo_concat, List.append_assoc, hlen]
    rfl
  · rw [pathTo_concat, ← List.drop_drop, List.drop_left]
    rfl

theorem metAt_entry {below : Option (H → List UInt16 → List (List UInt16))}
    {mets : Option (Place → List Met)} (hlevel : LevelMets m cap pre below mets)
    {entries : List (Name × FileTree I)} (hat : m.tree.at place = some (.node entries))
    (hlt : (pathTo pre place).length < cap) {e : Name × FileTree I} (he : e ∈ entries) :
    metAt m.vol cap (m.handleAt place) below (pathTo pre place) (recordOf e) =
      (m.entryMets cap pre mets place e).map (shown cap pre) := by
  cases htree : e.2 with
  | leaf image => exact metAt_file hlt htree
  | node children =>
      have hhere := m.at_entry hat he
      rw [htree] at hhere
      have hdir : (recordOf e).isDir = true := by rw [recordOf, htree]
      unfold metAt Mounted.entryMets
      rw [if_neg (recordOf_plain e), if_pos hdir, htree]
      rcases below with _ | below <;> rcases mets with _ | mets
      · rfl
      · exact hlevel.elim
      · exact hlevel.elim
      by_cases hfull : cap ≤ (pathTo pre place).length + 1
      · simp only [if_pos hfull, List.map_nil]
      obtain ⟨cut, hcut, hsub, hname⟩ := copyUnits_directory hfull e.1
      simp only [if_neg hfull, recordOf_name, hsub, hname]
      by_cases hfits : (pathTo pre (place ++ [e.1.chars])).length < cap
      · have hall : cut = e.1.chars := by
          rw [pathTo_concat, List.length_append, List.length_cons] at hfits
          rw [hcut]
          exact List.take_of_length_le (by omega)
        rw [hall, m.serves.child place entries hat e he, if_pos hfits]
        exact hlevel.1 _ children hhere hfits
      · have hlast : (pathTo pre (place ++ [cut])).length + 1 = cap := by
          rw [pathTo_concat, List.length_append, List.length_cons] at hfits ⊢
          rw [hcut, List.length_take]
          omega
        have hshown : shown cap pre ⟨place ++ [cut], false⟩ = pathTo pre (place ++ [cut]) :=
          List.take_of_length_le (by simp only; omega)
        rw [if_neg hfits]
        unfold Mounted.cutMets
        rw [← hcut]
        cases m.vol.openAt (m.handleAt place) cut with
        | none => rfl
        | some dir =>
            simp only [hlevel.2 dir _ hlast, List.map_map]
            exact List.map_congr_left fun r hr => hshown.symm

/-- The entries which the walk passes over lead to nothing. -/
theorem flatMap_metAt (vol : Volume H I) (cur : H)
    (below : Option (H → List UInt16 → List (List UInt16))) (path : List UInt16)
    (records : List Record) : records.flatMap (metAt vol cap cur below path) =
      (records.filter fun r => !skipped r.name).flatMap (metAt vol cap cur below path) := by
  induction records with
  | nil => rfl
  | cons r records ih =>
      rw [List.flatMap_cons, ih, List.filter_cons]
      cases hskip : skipped r.name with
      | true => simp [metAt, hskip]
      | false => simp

theorem flatMap_entries {below : Option (H → List UInt16 → List (List UInt16))}
    {mets : Option (Place → List Met)} (hlevel : LevelMets m cap pre below mets)
    {entries : List (Name × FileTree I)} (hat : m.tree.at place = some (.node entries))
    (hlt : (pathTo pre place).length < cap) :
    (m.vol.records (m.handleAt place)).flatMap
        (metAt m.vol cap (m.handleAt place) below (pathTo pre place)) =
      ((m.entriesAt place).flatMap (m.entryMets cap pre mets place)).map (shown cap pre) := by
  have hreads := m.serves.reads place entries hat
  rw [flatMap_metAt, hreads, m.entriesAt_eq hat, List.flatMap_map, List.map_flatMap]
  exact List.flatMap_congr fun e he => metAt_entry hlevel hat hlt he

/-- In a tree, the walk by handles meets what the walk by places meets. -/
theorem bootFiles_eq_mets (left : ℕ) {entries : List (Name × FileTree I)}
    (hat : m.tree.at place = some (.node entries)) (hlt : (pathTo pre place).length < cap) :
    bootFiles m.vol cap left (m.handleAt place) (pathTo pre place) =
      (m.mets cap pre left place).map (shown cap pre) := by
  induction left generalizing place entries with
  | zero => exact flatMap_entries (show LevelMets m cap pre none none from trivial) hat hlt
  | succ left ih =>
      have hlevel : LevelMets m cap pre (some (bootFiles m.vol cap left))
          (some (m.mets cap pre left)) :=
        ⟨fun place entries hat hlt => ih hat hlt,
          fun dir path hfull => bootFiles_full m.vol hfull left dir⟩
      exact flatMap_entries hlevel hat hlt

/-- A file `boot.efi`, so many directories below the root at most. -/
def Mounted.BootFile (m : Mounted H I) (depth : ℕ) (place : Place) : Prop :=
  ∃ dirs name image, place = dirs ++ [name] ∧ dirs.length ≤ depth ∧ isBootEfi name = true ∧
    m.tree.at place = some (.leaf image)

/-- What is known of a file which is met. -/
structure Lies (m : Mounted H I) (cap : ℕ) (pre : List UInt16) (depth : ℕ) (met : Met)
    (dirs : Place) (name : List UInt16) : Prop where
  place : met.place = dirs ++ [name]
  depth : dirs.length ≤ depth
  directory : ∃ entries, m.tree.at dirs = some (.node entries)
  room : (pathTo pre dirs).length < cap
  plain : backslash ∉ name
  file : met.whole = true →
    isBootEfi name = true ∧ ∃ image, m.tree.at met.place = some (.leaf image)
  cut : met.whole = false → (pathTo pre met.place).length < cap

/-- A file in what opens under a cut name. -/
theorem lies_of_cut {depth : ℕ} {met : Met} {entries : List (Name × FileTree I)}
    (hat : m.tree.at place = some (.node entries)) (hlt : (pathTo pre place).length < cap)
    (hdepth : place.length ≤ depth) (hroom : (pathTo pre place).length + 1 < cap) {n : Name}
    (h : met ∈ m.cutMets (cap - 1 - ((pathTo pre place).length + 1)) place n.chars) :
    Lies m cap pre depth met place
      (n.chars.take (cap - 1 - ((pathTo pre place).length + 1))) := by
  unfold Mounted.cutMets at h
  cases hopen : m.vol.openAt (m.handleAt place)
      (n.chars.take (cap - 1 - ((pathTo pre place).length + 1))) with
  | none =>
      rw [hopen] at h
      exact absurd h List.not_mem_nil
  | some dir =>
      rw [hopen] at h
      obtain ⟨r, -, rfl⟩ := List.mem_map.mp h
      refine ⟨rfl, hdepth, ⟨entries, hat⟩, hlt, fun hmem => n.noBackslash (List.mem_of_mem_take hmem),
        fun hwhole => absurd hwhole Bool.false_ne_true, fun _ => ?_⟩
      rw [pathTo_concat, List.length_append, List.length_cons, List.length_take]
      omega

theorem lies_of_entry {below : Option (Place → List Met)} {depth : ℕ} {met : Met}
    {entries : List (Name × FileTree I)} (hat : m.tree.at place = some (.node entries))
    (hlt : (pathTo pre place).length < cap) (hdepth : place.length ≤ depth)
    (hbelow : ∀ mets, below = some mets → ∀ place' entries',
      place'.length = place.length + 1 → m.tree.at place' = some (.node entries') →
        (pathTo pre place').length < cap → met ∈ mets place' →
          ∃ dirs name, Lies m cap pre depth met dirs name)
    {e : Name × FileTree I} (he : e ∈ entries) (h : met ∈ m.entryMets cap pre below place e) :
    ∃ dirs name, Lies m cap pre depth met dirs name := by
  have hhere := m.at_entry hat he
  unfold Mounted.entryMets at h
  cases htree : e.2 with
  | leaf image =>
      rw [htree] at h hhere
      by_cases hboot : isBootEfi e.1.chars = true
      · simp only [if_pos hboot, List.mem_singleton] at h
        refine ⟨place, e.1.chars, ?_⟩
        rw [h]
        exact ⟨rfl, hdepth, ⟨entries, hat⟩, hlt, e.1.noBackslash, fun _ => ⟨hboot, image, hhere⟩,
          fun hcut => absurd hcut Bool.false_ne_true.symm⟩
      · simp only [if_neg hboot] at h
        exact absurd h List.not_mem_nil
  | node children =>
      rw [htree] at h hhere
      cases below with
      | none => exact absurd h List.not_mem_nil
      | some mets =>
          simp only at h
          split_ifs at h with hfull hfits
          · exact absurd h List.not_mem_nil
          · exact hbelow mets rfl _ children List.length_append hhere hfits h
          · exact ⟨place, _, lies_of_cut hat hlt hdepth (Nat.lt_of_not_le hfull) h⟩

theorem lies_of_mem {left : ℕ} {met : Met} {entries : List (Name × FileTree I)}
    (hat : m.tree.at place = some (.node entries)) (hlt : (pathTo pre place).length < cap)
    (h : met ∈ m.mets cap pre left place) :
    ∃ dirs name, Lies m cap pre (place.length + left) met dirs name := by
  induction left generalizing place entries with
  | zero =>
      obtain ⟨e, he, hmet⟩ := List.mem_flatMap.mp h
      rw [m.entriesAt_eq hat] at he
      exact lies_of_entry hat hlt le_rfl (fun mets hmets => absurd hmets (by simp)) he hmet
  | succ left ih =>
      obtain ⟨e, he, hmet⟩ := List.mem_flatMap.mp h
      rw [m.entriesAt_eq hat] at he
      refine lies_of_entry hat hlt (Nat.le_add_right _ _) (fun mets hmets => ?_) he hmet
      obtain rfl := Option.some.inj hmets
      intro place' entries' hlen hat' hlt' hmem
      have hrest := ih hat' hlt' hmem
      rwa [hlen, Nat.add_right_comm] at hrest

/-- The path of this file is left in the array as it is. -/
def Exact (m : Mounted H I) (cap : ℕ) (pre : List UInt16) (maxDepth : ℕ) (met : Met) : Prop :=
  if met.whole then (pathTo pre met.place).length < cap else m.BootFile maxDepth met.place

theorem noBackslash_of_lies {depth : ℕ} {met : Met} {dirs : Place} {name : List UInt16}
    (h : Lies m cap pre depth met dirs name) : ∀ k ∈ met.place, backslash ∉ k := by
  obtain ⟨entries, hat⟩ := h.directory
  intro k hk
  rw [h.place] at hk
  rcases List.mem_append.mp hk with hk | hk
  · exact noBackslash_of_at hat k hk
  · rw [List.mem_singleton.mp hk]
    exact h.plain

theorem pathTo_inj {place place' : Place} (h : ∀ k ∈ place, backslash ∉ k)
    (h' : ∀ k ∈ place', backslash ∉ k) (heq : pathTo pre place = pathTo pre place') :
    place = place' := joinPath_inj h h' (List.append_cancel_left heq)

/-- A path which was cut is the path of no file of that name. -/
theorem not_bootFile_of_cut {depth : ℕ} {met : Met} {dirs : Place} {name : List UInt16}
    (h : Lies m cap pre depth met dirs name) (hboot : isBootEfi name = true)
    (hlong : cap ≤ (pathTo pre met.place).length) {depth' : ℕ} {place' : Place}
    (hfile : m.BootFile depth' place') : shown cap pre met ≠ pathTo pre place' := by
  obtain ⟨dirs', name', image, rfl, -, hboot', hat'⟩ := hfile
  obtain ⟨entries, hat⟩ := h.directory
  have hroom := h.room
  have hplain' := noBackslash_of_at hat'
  unfold shown
  rw [h.place, pathTo_concat] at hlong ⊢
  rw [List.length_append, List.length_cons] at hlong
  rw [List.take_append, List.take_of_length_le (l := pathTo pre dirs) (by omega)]
  cases hleft : cap - 1 - (pathTo pre dirs).length with
  | zero =>
      -- only the directory is left
      intro heq
      rw [List.take_zero, List.append_nil] at heq
      have hsame := pathTo_inj (noBackslash_of_at hat) hplain' heq
      rw [hsame, hat'] at hat
      exact absurd (Option.some.inj hat) (by simp)
  | succ k =>
      -- the name which is left is too short
      intro heq
      rw [List.take_succ_cons, ← pathTo_concat] at heq
      have hplain : ∀ l ∈ dirs ++ [name.take k], backslash ∉ l := by
        intro l hl
        rcases List.mem_append.mp hl with hl | hl
        · exact noBackslash_of_at hat l hl
        · rw [List.mem_singleton.mp hl]
          exact fun hmem => h.plain (List.mem_of_mem_take hmem)
      have hsame := pathTo_inj hplain hplain' heq
      have hname : name.take k = name' := by
        have hlast := congrArg List.getLast? hsame
        simpa using hlast
      have hlen := isBootEfi_length hboot'
      have hlen' := isBootEfi_length hboot
      rw [← hname, List.length_take] at hlen
      omega

/-- What the array holds is the path of a file exactly when it was not cut, or was cut to the
name of another such file. -/
theorem exact_iff {depth : ℕ} {met : Met} {dirs : Place} {name : List UInt16}
    (h : Lies m cap pre depth met dirs name) :
    (∃ place', m.BootFile depth place' ∧ shown cap pre met = pathTo pre place') ↔
      Exact m cap pre depth met := by
  unfold Exact
  by_cases hwhole : met.whole = true
  · rw [if_pos hwhole]
    obtain ⟨hboot, image, hat⟩ := h.file hwhole
    constructor
    · intro hfile
      obtain ⟨place', hfile, heq⟩ := hfile
      by_contra hlong
      exact not_bootFile_of_cut h hboot (Nat.le_of_not_lt hlong) hfile heq
    · intro hlt
      exact ⟨met.place, ⟨dirs, name, image, h.place, h.depth, hboot, hat⟩,
        List.take_of_length_le (by omega)⟩
  · rw [if_neg hwhole]
    have hlt := h.cut (Bool.eq_false_of_not_eq_true hwhole)
    have hshown : shown cap pre met = pathTo pre met.place := List.take_of_length_le (by omega)
    rw [hshown]
    constructor
    · intro hfile
      obtain ⟨place', hfile, heq⟩ := hfile
      obtain ⟨dirs', name', image, hplace, hdepth, hboot, hat⟩ := hfile
      rw [pathTo_inj (noBackslash_of_lies h) (noBackslash_of_at hat) heq]
      exact ⟨dirs', name', image, hplace, hdepth, hboot, hat⟩
    · intro hfile
      exact ⟨met.place, hfile, rfl⟩

/-- The call for the root, with a path of other directories in front. -/
def Mounted.walk (m : Mounted H I) {cap : ℕ} (maxDepth : ℕ) (b : PathBuffer cap) :
    Except OutOfBounds (Bool × List UInt16) :=
  bfsInto m.vol cap maxDepth m.vol.root b.text.length b.units

/-- No store outside of the array; with success the path of a file, and else what was there. -/
def Sound (m : Mounted H I) (maxDepth : ℕ) (b : PathBuffer cap) : Prop :=
  ∃ found buf, m.walk maxDepth b = .ok (found, buf) ∧
    (found = true → ∃ place, m.BootFile maxDepth place ∧ textOf buf = pathTo b.text place) ∧
    (found = false → textOf buf = b.text)

theorem pathTo_root (pre : List UInt16) : pathTo pre [] = pre := List.append_nil pre

theorem Mounted.at_root (m : Mounted H I) : m.tree.at [] = some (.node m.entries) := lookup_nil _

theorem PathBuffer.room (b : PathBuffer cap) : (pathTo b.text []).length < cap := by
  rw [pathTo_root]
  exact length_lt_of_carries b.carries

/-- The walk of a mounted volume. -/
theorem walk_eq (m : Mounted H I) (maxDepth : ℕ) (b : PathBuffer cap) :
    Agrees cap (m.walk maxDepth b)
      (firstOf b.text ((m.mets cap b.text maxDepth []).map (shown cap b.text))) := by
  have hmets := bootFiles_eq_mets maxDepth m.at_root b.room
  rw [pathTo_root, m.serves.root] at hmets
  rw [← hmets]
  exact bfsInto_agrees m.vol maxDepth m.vol.root b.carries

theorem sound_iff_first (m : Mounted H I) (maxDepth : ℕ) (b : PathBuffer cap) :
    Sound m maxDepth b ↔ ∀ met, (m.mets cap b.text maxDepth []).head? = some met →
      Exact m cap b.text maxDepth met := by
  obtain ⟨buf, hwalk, hcarries⟩ := walk_eq m maxDepth b
  unfold Sound
  cases hmets : m.mets cap b.text maxDepth [] with
  | nil =>
      rw [hmets] at hwalk hcarries
      refine iff_of_true ⟨false, buf, hwalk, fun hfound => ?_, fun _ => hcarries.textOf⟩ (by simp)
      exact absurd hfound Bool.false_ne_true
  | cons met mets =>
      rw [hmets] at hwalk hcarries
      obtain ⟨dirs, name, hlies⟩ := lies_of_mem m.at_root b.room (hmets ▸ List.mem_cons_self)
      rw [List.length_nil, Nat.zero_add] at hlies
      have htext : textOf buf = shown cap b.text met := hcarries.textOf
      rw [List.head?_cons]
      constructor
      · intro h met' hmet'
        obtain rfl := Option.some.inj hmet'
        obtain ⟨found, buf', hrun, hfound, -⟩ := h
        obtain ⟨rfl, rfl⟩ := Prod.mk.inj (Except.ok.inj (hwalk.symm.trans hrun))
        rw [htext] at hfound
        exact (exact_iff hlies).mp (hfound rfl)
      · intro h
        refine ⟨true, buf, hwalk, fun _ => ?_, fun hfound => ?_⟩
        · rw [htext]
          exact (exact_iff hlies).mpr (h met rfl)
        · exact absurd hfound Bool.false_ne_true.symm

end

/-- The walk ends, no store is outside of the array, and without success the array holds what it
held. With success it holds the path of a file exactly when the path of the first file which is met
fits, or the walk came to that file under a cut name which is the name of another. -/
theorem sound_iff {cap : ℕ} (m : Mounted H I) (maxDepth : ℕ) (b : PathBuffer cap) :
    (∃ found buf, m.walk maxDepth b = .ok (found, buf) ∧ buf.length = cap ∧
      (found = false → textOf buf = b.text)) ∧
    (Sound m maxDepth b ↔ ∀ met, (m.mets cap b.text maxDepth []).head? = some met →
      Exact m cap b.text maxDepth met) := by
  refine ⟨?_, sound_iff_first m maxDepth b⟩
  obtain ⟨buf, hwalk, hcarries⟩ := walk_eq m maxDepth b
  refine ⟨_, buf, hwalk, hcarries.begins.size, ?_⟩
  rw [hcarries.textOf]
  intro hfound
  cases hmets : (m.mets cap b.text maxDepth []).map (shown cap b.text) with
  | nil => rfl
  | cons path paths =>
      rw [hmets] at hfound
      exact absurd hfound Bool.false_ne_true.symm

/-- One directory in the other, and a file in the last of them. -/
def chain : List Name → FileTree UInt8
  | [] => .leaf (some 1)
  | n :: names => .node [(n, chain names)]

theorem chain_distinct (names : List Name) {place : Place} {entries : List (Name × FileTree UInt8)}
    (h : (chain names).at place = some (.node entries)) :
    (entries.map fun e => e.1.chars).Nodup := by
  induction names generalizing place with
  | nil =>
      cases place with
      | nil => exact absurd (Option.some.inj h) (by simp [chain])
      | cons k ks => exact absurd h (by simp [FileTree.at, chain, NamedTree.lookup])
  | cons n names ih =>
      cases place with
      | nil =>
          have hentries : [(n, chain names)] = entries := by
            simpa [FileTree.at, chain] using h
          rw [← hentries]
          exact List.nodup_singleton _
      | cons k ks =>
          obtain ⟨entries', hchain, e, he, -, hrest, -⟩ := lookup_cons h
          rw [chain, NamedTree.node.injEq] at hchain
          rw [← hchain, List.mem_singleton] at he
          rw [he] at hrest
          exact ih hrest

def mountedChain (n : Name) (names : List Name) : Mounted Place UInt8 where
  vol := strictVolume (chain (n :: names))
  entries := [(n, chain names)]
  handleAt := id
  serves := serves_strictVolume (chain (n :: names))
  distinct _ _ h := chain_distinct (n :: names) h

/-- The array of the caller. -/
def clearedBuffer : PathBuffer fullPathCap where
  text := []
  units := 0 :: List.replicate 511 0
  carries := by
    refine ⟨⟨?_, List.prefix_append [0] _⟩, List.not_mem_nil⟩
    rw [List.length_cons, List.length_replicate]
    rfl

def longName (c : UInt16) (hnul : c ≠ 0) (hsep : c ≠ backslash) : Name where
  chars := List.replicate 252 c
  noNul h := hnul (List.eq_of_mem_replicate h).symm
  noBackslash h := hsep (List.eq_of_mem_replicate h).symm
  plain := by
    apply not_skipped_of_length
    rw [List.length_replicate]
    decide
  short := by
    rw [List.length_replicate]
    decide

def longA : Name := longName 0x61 (by decide) (by decide)

/-- Two names of 252 characters leave no room for the name of the file. -/
theorem long_directories_cut :
    ¬Sound (mountedChain longA [longA, bootEfiName]) maxDepth clearedBuffer := by
  intro h
  have hmets : (mountedChain longA [longA, bootEfiName]).mets fullPathCap clearedBuffer.text
      maxDepth [] = [⟨[longA.chars, longA.chars, bootEfiName.chars], true⟩] := by decide +kernel
  have hexact := (sound_iff_first _ _ _).mp h ⟨_, true⟩ (by rw [hmets]; rfl)
  rw [Exact, if_pos rfl] at hexact
  exact absurd hexact (by decide +kernel)

end BankFinder.WalkBuffer
