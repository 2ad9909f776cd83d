import BankFinder.BootSearch
import BankFinder.NamedTrees

/-!
# Which `boot.efi` the search finds

A volume shows a tree of directories. The walk of the last resort can meet every file named
`boot.efi` in the first levels of that tree, but it stops at the first one, and the search is
over when that one does not load.
-/

namespace BankFinder.SearchComplete
open TaggedNodes NamedTrees DevicePaths BootSearch

/-- The name of a file or a directory. -/
structure Name where
  chars : List UInt16
  noNul : 0 ∉ chars
  noBackslash : backslash ∉ chars
  plain : skipped chars = false
  short : chars.length ≤ 255

variable {H I : Type}

/-- A file carries the image which loading it gives, if it loads. -/
abbrev FileTree (I : Type) := NamedTree Name (Option I)

/-- A place in a tree, by the names of the directories which lead to it. -/
abbrev Place := List (List UInt16)

def FileTree.at (tree : FileTree I) (place : Place) : Option (FileTree I) :=
  tree.lookup Name.chars place

def recordOf (e : Name × FileTree I) : Record where
  name := e.1.chars
  isDir := match e.2 with
    | .leaf _ => false
    | .node _ => true

theorem recordOf_name (e : Name × FileTree I) : (recordOf e).name = e.1.chars := rfl

/-- The volume shows the tree: every place has a handle, which opens from the directory
above and by its full path from the root. Entries for the directory itself and the one above
may be listed too. Of paths which are not of this form nothing is known. -/
structure Serves (vol : Volume H I) (tree : FileTree I) (handleAt : Place → H) : Prop where
  root : handleAt [] = vol.root
  reads : ∀ place entries, tree.at place = some (.node entries) →
    (vol.records (handleAt place)).filter (fun r => !skipped r.name) = entries.map recordOf
  child : ∀ place entries, tree.at place = some (.node entries) → ∀ e ∈ entries,
    vol.openAt (handleAt place) e.1.chars = some (handleAt (place ++ [e.1.chars]))
  fullPath : ∀ place, place ≠ [] → tree.at place ≠ none →
    vol.openAt vol.root (joinPath backslash place) = some (handleAt place)
  loads : ∀ place image, tree.at place = some (.leaf image) →
    loadFile vol (handleAt place) = image

theorem mem_bootFiles_file {vol : Volume H I} {cur : H} {r : Record} (hr : r ∈ vol.records cur)
    (hskip : skipped r.name = false) (hdir : r.isDir = false) (hboot : isBootEfi r.name = true)
    (cap left : ℕ) (buf : List UInt16) :
    copyUnits cap (copyUnits cap buf [backslash]) r.name ∈ bootFiles vol cap left cur buf := by
  have hmet (below : Option (H → List UInt16 → List (List UInt16))) :
      copyUnits cap (copyUnits cap buf [backslash]) r.name ∈ metAt vol cap cur below buf r := by
    unfold metAt
    rw [if_neg (by rw [hskip]; exact Bool.false_ne_true),
      if_neg (by rw [hdir]; exact Bool.false_ne_true), if_pos hboot]
    exact List.mem_singleton_self _
  cases left with
  | zero => exact List.mem_flatMap.mpr ⟨r, hr, hmet _⟩
  | succ left => exact List.mem_flatMap.mpr ⟨r, hr, hmet _⟩

theorem mem_bootFiles_dir {vol : Volume H I} {cur dir : H} {r : Record}
    (hr : r ∈ vol.records cur) (hskip : skipped r.name = false) (hdir : r.isDir = true)
    {cap left : ℕ} {buf path : List UInt16} (hroom : buf.length + 1 < cap)
    (hopen : vol.openAt cur
      ((copyUnits cap (buf ++ [backslash]) r.name).drop (buf.length + 1)) = some dir)
    (hpath : path ∈ bootFiles vol cap left dir (copyUnits cap (buf ++ [backslash]) r.name)) :
    path ∈ bootFiles vol cap (left + 1) cur buf := by
  refine List.mem_flatMap.mpr ⟨r, hr, ?_⟩
  unfold metAt
  rw [if_neg (by rw [hskip]; exact Bool.false_ne_true), if_pos hdir]
  simp only [if_neg (not_le.mpr hroom), hopen]
  exact hpath

theorem copyUnits_fits {cap : ℕ} {out src : List UInt16} (hnul : 0 ∉ src)
    (h : out.length + src.length < cap) : copyUnits cap out src = out ++ src := by
  rw [copyUnits_eq src (by omega), textOf_open hnul, List.take_of_length_le (by omega)]

theorem length_joinPath_concat (place : Place) (k : List UInt16) :
    (joinPath backslash (place ++ [k])).length =
      (joinPath backslash place).length + 1 + k.length := by
  rw [joinPath_concat, List.length_append, List.length_cons]
  omega

theorem copyUnits_name {cap : ℕ} {place : Place} (n : Name)
    (h : (joinPath backslash (place ++ [n.chars])).length < cap) :
    copyUnits cap (joinPath backslash place ++ [backslash]) n.chars =
      joinPath backslash (place ++ [n.chars]) := by
  rw [length_joinPath_concat] at h
  rw [copyUnits_fits n.noNul (by rw [List.length_append, List.length_singleton]; omega),
    joinPath_concat, List.append_assoc, List.singleton_append]

theorem entry_of_at {tree t : FileTree I} {place : Place} {k : List UInt16} {ks : Place}
    (h : tree.at (place ++ k :: ks) = some t) : ∃ entries, tree.at place = some (.node entries) ∧
      ∃ e ∈ entries, e.1.chars = k ∧ e.2.lookup Name.chars ks = some t := by
  unfold FileTree.at at h ⊢
  rw [lookup_append] at h
  obtain ⟨s, hs, hrest⟩ := Option.bind_eq_some_iff.mp h
  obtain ⟨entries, rfl, e, he, hkey, htail, -⟩ := lookup_cons hrest
  exact ⟨entries, hs, e, he, hkey, htail⟩

theorem record_mem {vol : Volume H I} {tree : FileTree I} {handleAt : Place → H}
    (hserves : Serves vol tree handleAt) {place : Place} {entries : List (Name × FileTree I)}
    (hat : tree.at place = some (.node entries)) {e : Name × FileTree I} (he : e ∈ entries) :
    recordOf e ∈ vol.records (handleAt place) := by
  have hmem : recordOf e ∈ entries.map recordOf := List.mem_map_of_mem he
  rw [← hserves.reads place entries hat] at hmem
  exact (List.mem_filter.mp hmem).1

section
variable {vol : Volume H I} {tree : FileTree I} {handleAt : Place → H} {cap left : ℕ}
variable {place : Place} {entries : List (Name × FileTree I)} {e : Name × FileTree I}

theorem met_in_directory (hserves : Serves vol tree handleAt)
    (hat : tree.at place = some (.node entries)) (he : e ∈ entries) {image : Option I}
    (hfile : e.2 = .leaf image) (hboot : isBootEfi e.1.chars = true)
    (hfits : (joinPath backslash (place ++ [e.1.chars])).length < cap) (left : ℕ) :
    joinPath backslash (place ++ [e.1.chars]) ∈
      bootFiles vol cap left (handleAt place) (joinPath backslash place) := by
  have hdir : (recordOf e).isDir = false := by
    rw [recordOf, hfile]
  have hmem := mem_bootFiles_file (record_mem hserves hat he) e.1.plain hdir hboot cap left
    (joinPath backslash place)
  have hlen := length_joinPath_concat place e.1.chars
  have hsep : copyUnits cap (joinPath backslash place) [backslash] =
      joinPath backslash place ++ [backslash] :=
    copyUnits_fits (by decide) (by rw [List.length_singleton]; omega)
  rw [hsep, recordOf_name, copyUnits_name e.1 hfits] at hmem
  exact hmem

theorem met_below_directory (hserves : Serves vol tree handleAt)
    (hat : tree.at place = some (.node entries)) (he : e ∈ entries)
    {children : List (Name × FileTree I)} (hdir : e.2 = .node children)
    (hfits : (joinPath backslash (place ++ [e.1.chars])).length < cap) {path : List UInt16}
    (hpath : path ∈ bootFiles vol cap left (handleAt (place ++ [e.1.chars]))
      (joinPath backslash (place ++ [e.1.chars]))) :
    path ∈ bootFiles vol cap (left + 1) (handleAt place) (joinPath backslash place) := by
  have hrecord : (recordOf e).isDir = true := by
    rw [recordOf, hdir]
  have hlen := length_joinPath_concat place e.1.chars
  have hsub : copyUnits cap (joinPath backslash place ++ [backslash]) (recordOf e).name =
      joinPath backslash (place ++ [e.1.chars]) := by
    rw [recordOf_name, copyUnits_name e.1 hfits]
  have hdrop : (joinPath backslash (place ++ [e.1.chars])).drop
      ((joinPath backslash place).length + 1) = e.1.chars := by
    rw [joinPath_concat, ← List.drop_drop, List.drop_left]
    rfl
  have hopen : vol.openAt (handleAt place)
      ((copyUnits cap (joinPath backslash place ++ [backslash]) (recordOf e).name).drop
        ((joinPath backslash place).length + 1)) = some (handleAt (place ++ [e.1.chars])) := by
    rw [hsub, hdrop]
    exact hserves.child place entries hat e he
  rw [← hsub] at hpath
  exact mem_bootFiles_dir (record_mem hserves hat he) e.1.plain hrecord (by omega) hopen hpath

theorem node_of_lookup {t s : FileTree I} {dirs : Place} {name : List UInt16}
    (h : t.lookup Name.chars (dirs ++ [name]) = some s) : ∃ children, t = .node children := by
  cases dirs with
  | nil =>
      obtain ⟨children, ht, -⟩ := lookup_cons h
      exact ⟨children, ht⟩
  | cons d dirs =>
      obtain ⟨children, ht, -⟩ := lookup_cons h
      exact ⟨children, ht⟩

/-- The path of a boot file is met from each of the directories which lead to it. -/
theorem mem_bootFiles (hserves : Serves vol tree handleAt) {dirs : Place} {name : List UInt16}
    {image : Option I} (hfile : tree.at (place ++ (dirs ++ [name])) = some (.leaf image))
    (hboot : isBootEfi name = true) (hleft : dirs.length ≤ left)
    (hfits : (joinPath backslash (place ++ (dirs ++ [name]))).length < cap) :
    joinPath backslash (place ++ (dirs ++ [name])) ∈
      bootFiles vol cap left (handleAt place) (joinPath backslash place) := by
  induction dirs generalizing left place with
  | nil =>
      obtain ⟨entries, hat, e, he, rfl, hleaf⟩ := entry_of_at hfile
      rw [lookup_nil] at hleaf
      exact met_in_directory hserves hat he (Option.some.inj hleaf) hboot hfits left
  | cons d dirs ih =>
      cases left with
      | zero => exact absurd hleft (Nat.not_succ_le_zero _)
      | succ left =>
          obtain ⟨entries, hat, e, he, rfl, hrest⟩ := entry_of_at hfile
          obtain ⟨children, hdir⟩ := node_of_lookup hrest
          have hplace : place ++ (e.1.chars :: dirs ++ [name]) =
              place ++ [e.1.chars] ++ (dirs ++ [name]) := by simp
          rw [hplace] at hfile hfits ⊢
          have hpath := ih hfile (Nat.le_of_succ_le_succ hleft) hfits
          rw [joinPath, List.flatMap_append, ← joinPath, List.length_append] at hfits
          exact met_below_directory hserves hat he hdir (by omega) hpath

end

section
variable {vol : Volume H I}

def Loads (vol : Volume H I) (path : List UInt16) : Prop := ∃ image, tryPath vol path = some image

theorem copyUnits_ne_nil {cap : ℕ} {out : List UInt16} (h : out ≠ []) (src : List UInt16) :
    copyUnits cap out src ≠ [] := by
  induction src generalizing out with
  | nil => exact h
  | cons c src ih =>
      unfold copyUnits
      split_ifs
      · exact ih (List.append_ne_nil_of_left_ne_nil h _)
      · exact h

theorem hit_ne_nil {cap : ℕ} (hcap : 2 ≤ cap) (buf name : List UInt16) :
    copyUnits cap (copyUnits cap buf [backslash]) name ≠ [] := by
  apply copyUnits_ne_nil
  cases buf with
  | nil =>
      have hroom : ([] : List UInt16).length + 1 < cap := by
        rw [List.length_nil]
        omega
      rw [copyUnits, if_pos ⟨by decide, hroom⟩]
      exact copyUnits_ne_nil (List.cons_ne_nil _ _) []
  | cons c buf => exact copyUnits_ne_nil (List.cons_ne_nil _ _) _

theorem metAt_ne_nil {cap : ℕ} (hcap : 2 ≤ cap) {cur : H} {buf path : List UInt16} {r : Record}
    {below : Option (H → List UInt16 → List (List UInt16))}
    (hbelow : ∀ b, below = some b → ∀ dir buf, ∀ p ∈ b dir buf, p ≠ [])
    (h : path ∈ metAt vol cap cur below buf r) : path ≠ [] := by
  unfold metAt at h
  by_cases hskip : skipped r.name = true
  · rw [if_pos hskip] at h
    exact absurd h List.not_mem_nil
  rw [if_neg hskip] at h
  by_cases hdir : r.isDir = true
  · rw [if_pos hdir] at h
    cases hb : below with
    | none =>
        rw [hb] at h
        exact absurd h List.not_mem_nil
    | some b =>
        simp only [hb] at h
        by_cases hfull : cap ≤ buf.length + 1
        · rw [if_pos hfull] at h
          exact absurd h List.not_mem_nil
        rw [if_neg hfull] at h
        cases hopen : vol.openAt cur
            ((copyUnits cap (buf ++ [backslash]) r.name).drop (buf.length + 1)) with
        | none =>
            simp only [hopen] at h
            exact absurd h List.not_mem_nil
        | some dir =>
            simp only [hopen] at h
            exact hbelow b hb dir _ path h
  · rw [if_neg hdir] at h
    by_cases hboot : isBootEfi r.name = true
    · rw [if_pos hboot, List.mem_singleton] at h
      rw [h]
      exact hit_ne_nil hcap buf r.name
    · rw [if_neg hboot] at h
      exact absurd h List.not_mem_nil

theorem bootFiles_ne_nil {cap : ℕ} (hcap : 2 ≤ cap) {left : ℕ} {cur : H} {buf path : List UInt16}
    (h : path ∈ bootFiles vol cap left cur buf) : path ≠ [] := by
  induction left generalizing cur buf path with
  | zero =>
      obtain ⟨r, -, hr⟩ := List.mem_flatMap.mp h
      exact metAt_ne_nil hcap (fun b hb => absurd hb (by simp)) hr
  | succ left ih =>
      obtain ⟨r, -, hr⟩ := List.mem_flatMap.mp h
      refine metAt_ne_nil hcap (fun b hb dir buf p hp => ?_) hr
      obtain rfl := Option.some.inj hb
      exact ih hp

theorem tryPaths_some {paths : List (List UInt16)} {path : List UInt16} {image : I}
    (h : tryPaths vol paths = some (path, image)) : tryPath vol path = some image := by
  obtain ⟨path', -, hsome⟩ := List.exists_of_findSome?_eq_some h
  obtain ⟨image', himage, heq⟩ := Option.map_eq_some_iff.mp hsome
  cases heq
  exact himage

theorem tryPaths_none {paths : List (List UInt16)} :
    tryPaths vol paths = none ↔ ∀ path ∈ paths, ¬Loads vol path := by
  have hload (path : List UInt16) :
      (tryPath vol path).map (fun image => (path, image)) = none ↔ ¬Loads vol path := by
    rw [Option.map_eq_none_iff, Option.eq_none_iff_forall_ne_some, Loads, not_exists]
  unfold tryPaths
  rw [List.findSome?_eq_none_iff]
  simp only [hload]

/-- The search is successful exactly when one of the candidates loads, or the first file
which the walk can meet. -/
theorem tryOpenCandidates_some_iff : tryOpenCandidates vol ≠ none ↔
    (∃ path ∈ candidates vol, Loads vol path) ∨
      ∃ path, (bootFiles vol fullPathCap maxDepth vol.root []).head? = some path ∧
        Loads vol path := by
  unfold tryOpenCandidates
  rw [bfsFindBootEfi_eq]
  cases hearly : tryPaths vol (candidates vol) with
  | some hit =>
      refine iff_of_true (by simp) (Or.inl ?_)
      by_contra hnone
      have hfail : ∀ path ∈ candidates vol, ¬Loads vol path :=
        fun path hpath hload => hnone ⟨path, hpath, hload⟩
      rw [tryPaths_none.mpr hfail] at hearly
      exact absurd hearly (by simp)
  | none =>
      have hfail := tryPaths_none.mp hearly
      have hleft : ¬∃ path ∈ candidates vol, Loads vol path := by
        rintro ⟨path, hpath, hload⟩
        exact hfail path hpath hload
      rw [or_iff_right hleft]
      cases hfiles : bootFiles vol fullPathCap maxDepth vol.root [] with
      | nil => simp [firstOf]
      | cons path paths =>
          have hne : path ≠ [] := bootFiles_ne_nil (by decide) (hfiles ▸ List.mem_cons_self)
          have hsingle : tryPaths vol [path] ≠ none ↔ Loads vol path := by
            rw [Ne, tryPaths_none]
            simp
          simpa [firstOf, hne] using hsingle

theorem tryOpenCandidates_loads {path : List UInt16} {image : I}
    (h : tryOpenCandidates vol = some (path, image)) : tryPath vol path = some image := by
  unfold tryOpenCandidates at h
  cases hearly : tryPaths vol (candidates vol) with
  | some hit =>
      rw [hearly] at h
      simp only [Option.some.injEq] at h
      exact tryPaths_some (h ▸ hearly)
  | none =>
      simp only [hearly] at h
      split_ifs at h
      exact tryPaths_some h

end

/-- A loadable file named `boot.efi`, at most four directories below the root and with a
path which fits. -/
def Good (tree : FileTree I) (place : Place) : Prop := ∃ dirs name image,
  place = dirs ++ [name] ∧ dirs.length ≤ maxDepth ∧ isBootEfi name = true ∧
    (joinPath backslash place).length < fullPathCap ∧ tree.at place = some (.leaf (some image))

/-- Where there is such a file, the search returns the image of a file which loads. -/
def Complete (vol : Volume H I) (tree : FileTree I) : Prop :=
  (∃ place, Good tree place) →
    ∃ path image, tryOpenCandidates vol = some (path, image) ∧ tryPath vol path = some image

def entriesAt (tree : FileTree I) (place : Place) : List (Name × FileTree I) :=
  match tree.at place with
  | some (.node entries) => entries
  | _ => []

/-- The places named `boot.efi` to which an entry leads. -/
def placesOf (below : Option (Place → List Place)) (place : Place) (e : Name × FileTree I) :
    List Place :=
  match e.2, below with
  | .leaf _, _ => if isBootEfi e.1.chars then [place ++ [e.1.chars]] else []
  | .node _, none => []
  | .node _, some below => below (place ++ [e.1.chars])

/-- The places named `boot.efi` from a place on, in the order of the entries, depth first. -/
def bootPlaces (tree : FileTree I) : ℕ → Place → List Place
  | 0, place => (entriesAt tree place).flatMap (placesOf none place)
  | left + 1, place => (entriesAt tree place).flatMap (placesOf (some (bootPlaces tree left)) place)

/-- The names in a directory differ, and the paths to which the walk comes fit the buffer. -/
structure Walkable (tree : FileTree I) : Prop where
  directory : ∃ entries, tree = .node entries
  distinct : ∀ place entries, tree.at place = some (.node entries) →
    (entries.map fun e => e.1.chars).Nodup
  fits : ∀ place, place.length ≤ maxDepth + 1 → tree.at place ≠ none →
    (joinPath backslash place).length < fullPathCap

theorem placesOf_leaf (below : Option (Place → List Place)) {place : Place}
    {e : Name × FileTree I} {image : Option I} (h : e.2 = .leaf image) :
    placesOf below place e = if isBootEfi e.1.chars then [place ++ [e.1.chars]] else [] := by
  obtain ⟨name, t⟩ := e
  subst h
  rfl

theorem placesOf_node (below : Option (Place → List Place)) {place : Place}
    {e : Name × FileTree I} {children : List (Name × FileTree I)} (h : e.2 = .node children) :
    placesOf below place e = match below with
      | none => []
      | some below => below (place ++ [e.1.chars]) := by
  obtain ⟨name, t⟩ := e
  subst h
  cases below with
  | none => rfl
  | some below => rfl

theorem entriesAt_node {tree : FileTree I} {place : Place} {entries : List (Name × FileTree I)}
    (hat : tree.at place = some (.node entries)) : entriesAt tree place = entries := by
  rw [entriesAt, hat]

/-- A place which has entries is a directory. -/
theorem node_of_entriesAt {tree : FileTree I} {place : Place} {e : Name × FileTree I}
    (he : e ∈ entriesAt tree place) : tree.at place = some (.node (entriesAt tree place)) := by
  unfold entriesAt at he ⊢
  split at he
  · assumption
  · exact absurd he List.not_mem_nil

/-- What the records of a directory lead to is what its entries lead to. -/
theorem flatMap_records {vol : Volume H I} {tree : FileTree I} {handleAt : Place → H}
    (h : Serves vol tree handleAt) {place : Place} {entries : List (Name × FileTree I)}
    (hat : tree.at place = some (.node entries))
    (below : Option (H → List UInt16 → List (List UInt16))) (buf : List UInt16) :
    (vol.records (handleAt place)).flatMap (metAt vol fullPathCap (handleAt place) below buf) =
      entries.flatMap fun e => metAt vol fullPathCap (handleAt place) below buf (recordOf e) := by
  have hentries : (entries.flatMap fun e =>
      metAt vol fullPathCap (handleAt place) below buf (recordOf e)) =
        (entries.map recordOf).flatMap (metAt vol fullPathCap (handleAt place) below buf) :=
    (List.flatMap_map _ _ _).symm
  rw [hentries, ← h.reads place entries hat]
  generalize vol.records (handleAt place) = records
  induction records with
  | nil => rfl
  | cons r records ih =>
      rw [List.flatMap_cons, ih]
      cases hskip : skipped r.name with
      | true =>
          have hnone : metAt vol fullPathCap (handleAt place) below buf r = [] := if_pos hskip
          rw [List.filter_cons_of_neg (by simp [hskip]), hnone, List.nil_append]
      | false =>
          rw [List.filter_cons_of_pos (by simp [hskip]), List.flatMap_cons]

section
variable {tree : FileTree I} (hwalk : Walkable tree)
include hwalk

theorem at_entry {place : Place} {e : Name × FileTree I} (he : e ∈ entriesAt tree place) :
    tree.at (place ++ [e.1.chars]) = some e.2 := by
  have hat := node_of_entriesAt he
  have hentry := lookup_entry (hwalk.distinct place _ hat) he
  unfold FileTree.at at hat ⊢
  rw [lookup_append, hat, Option.bind_some]
  exact hentry

theorem fits_entry {place : Place} {e : Name × FileTree I} (he : e ∈ entriesAt tree place)
    (hdepth : place.length ≤ maxDepth) :
    (joinPath backslash (place ++ [e.1.chars])).length < fullPathCap := by
  apply hwalk.fits
  · rw [List.length_append, List.length_singleton]
    omega
  · rw [at_entry hwalk he]
    simp

/-- Each of these places is a file. -/
theorem file_of_bootPlaces {left : ℕ} {place found : Place}
    (h : found ∈ bootPlaces tree left place) :
    found ≠ [] ∧ ∃ image, tree.at found = some (.leaf image) := by
  have hfile {place : Place} {e : Name × FileTree I} {image : Option I}
      (he : e ∈ entriesAt tree place) (hleaf : e.2 = .leaf image)
      (h : found ∈ if isBootEfi e.1.chars then [place ++ [e.1.chars]] else []) :
      found ≠ [] ∧ ∃ image, tree.at found = some (.leaf image) := by
    split_ifs at h
    · rw [List.mem_singleton.mp h, at_entry hwalk he, hleaf]
      exact ⟨List.concat_ne_nil _ _, image, rfl⟩
    · exact absurd h List.not_mem_nil
  induction left generalizing place with
  | zero =>
      obtain ⟨e, he, hfound⟩ := List.mem_flatMap.mp h
      cases hnode : e.2 with
      | leaf image =>
          rw [placesOf_leaf none hnode] at hfound
          exact hfile he hnode hfound
      | node children =>
          rw [placesOf_node none hnode] at hfound
          exact absurd hfound List.not_mem_nil
  | succ left ih =>
      obtain ⟨e, he, hfound⟩ := List.mem_flatMap.mp h
      cases hnode : e.2 with
      | leaf image =>
          rw [placesOf_leaf _ hnode] at hfound
          exact hfile he hnode hfound
      | node children =>
          rw [placesOf_node _ hnode] at hfound
          exact ih hfound

variable {vol : Volume H I} {handleAt : Place → H}

theorem metAt_file {place : Place} {e : Name × FileTree I} (he : e ∈ entriesAt tree place)
    (hdepth : place.length ≤ maxDepth) {image : Option I} (hfile : e.2 = .leaf image)
    (below : Option (H → List UInt16 → List (List UInt16)))
    (below' : Option (Place → List Place)) :
    metAt vol fullPathCap (handleAt place) below (joinPath backslash place) (recordOf e) =
      (placesOf below' place e).map (joinPath backslash) := by
  have hdir : (recordOf e).isDir = false := by
    rw [recordOf, hfile]
  have hfits := fits_entry hwalk he hdepth
  have hlen := length_joinPath_concat place e.1.chars
  have hsep : copyUnits fullPathCap (joinPath backslash place) [backslash] =
      joinPath backslash place ++ [backslash] :=
    copyUnits_fits (by decide) (by rw [List.length_singleton]; omega)
  rw [placesOf_leaf below' hfile]
  unfold metAt
  rw [recordOf_name, e.1.plain, hdir, hsep, copyUnits_name e.1 hfits]
  simp only [Bool.false_eq_true, if_false]
  split_ifs
  · rfl
  · rfl

variable (h : Serves vol tree handleAt)
include h

theorem metAt_dir {place : Place} {e : Name × FileTree I} (he : e ∈ entriesAt tree place)
    (hdepth : place.length ≤ maxDepth) {children : List (Name × FileTree I)}
    (hnode : e.2 = .node children) (below : H → List UInt16 → List (List UInt16)) :
    metAt vol fullPathCap (handleAt place) (some below) (joinPath backslash place) (recordOf e) =
      below (handleAt (place ++ [e.1.chars])) (joinPath backslash (place ++ [e.1.chars])) := by
  have hdir : (recordOf e).isDir = true := by
    rw [recordOf, hnode]
  have hfits := fits_entry hwalk he hdepth
  have hlen := length_joinPath_concat place e.1.chars
  have hdrop : (joinPath backslash (place ++ [e.1.chars])).drop
      ((joinPath backslash place).length + 1) = e.1.chars := by
    rw [joinPath_concat, ← List.drop_drop, List.drop_left]
    rfl
  have hopen := h.child place _ (node_of_entriesAt he) e he
  unfold metAt
  rw [recordOf_name, e.1.plain, hdir, copyUnits_name e.1 hfits]
  simp only [Bool.false_eq_true, if_false, if_true, hdrop, hopen]
  exact if_neg (by omega)

/-- The walk meets the places of the tree, in their order. -/
theorem bootFiles_eq {left : ℕ} {place : Place} (hdepth : place.length + left ≤ maxDepth)
    {entries : List (Name × FileTree I)} (hat : tree.at place = some (.node entries)) :
    bootFiles vol fullPathCap left (handleAt place) (joinPath backslash place) =
      (bootPlaces tree left place).map (joinPath backslash) := by
  induction left generalizing place entries with
  | zero =>
      rw [bootFiles, bootPlaces, flatMap_records h hat, entriesAt_node hat, List.map_flatMap]
      apply List.flatMap_congr
      intro e he
      rw [← entriesAt_node hat] at he
      cases hnode : e.2 with
      | leaf image => exact metAt_file hwalk he (by omega) hnode none none
      | node children =>
          have hdir : (recordOf e).isDir = true := by
            rw [recordOf, hnode]
          rw [placesOf_node none hnode, metAt, recordOf_name, e.1.plain, hdir]
          rfl
  | succ left ih =>
      rw [bootFiles, bootPlaces, flatMap_records h hat, entriesAt_node hat, List.map_flatMap]
      apply List.flatMap_congr
      intro e he
      rw [← entriesAt_node hat] at he
      cases hnode : e.2 with
      | leaf image => exact metAt_file hwalk he (by omega) hnode _ _
      | node children =>
          rw [placesOf_node _ hnode, metAt_dir hwalk h he (by omega) hnode]
          apply ih
          · rw [List.length_append, List.length_singleton]
            omega
          · exact (at_entry hwalk he).trans (congrArg some hnode)

/-- On such a tree the first file of that name loads exactly when it is loadable. -/
theorem first_loads_iff : (∃ path,
    (bootFiles vol fullPathCap maxDepth vol.root []).head? = some path ∧ Loads vol path) ↔
      ∃ place image, (bootPlaces tree maxDepth []).head? = some place ∧
        tree.at place = some (.leaf (some image)) := by
  obtain ⟨entries, htree⟩ := hwalk.directory
  have hat : tree.at [] = some (.node entries) := by
    rw [FileTree.at, lookup_nil, htree]
  have hdepth : ([] : Place).length + maxDepth ≤ maxDepth := by
    rw [List.length_nil, Nat.zero_add]
  have hfiles := bootFiles_eq hwalk h hdepth hat
  rw [h.root] at hfiles
  have hpath {place : Place} (hmem : place ∈ bootPlaces tree maxDepth []) {image : Option I}
      (hfile : tree.at place = some (.leaf image)) :
      tryPath vol (joinPath backslash place) = image := by
    have hne := (file_of_bootPlaces hwalk hmem).1
    rw [tryPath, h.fullPath place hne (by rw [hfile]; simp)]
    exact h.loads place image hfile
  change (∃ path, (bootFiles vol fullPathCap maxDepth vol.root (joinPath backslash [])).head? =
    some path ∧ Loads vol path) ↔ _
  rw [hfiles, List.head?_map]
  constructor
  · intro hsome
    obtain ⟨path, hhead, image, hload⟩ := hsome
    obtain ⟨place, hplace, rfl⟩ := Option.map_eq_some_iff.mp hhead
    have hmem := List.mem_of_mem_head? hplace
    obtain ⟨-, found, hfile⟩ := file_of_bootPlaces hwalk hmem
    rw [hpath hmem hfile] at hload
    exact ⟨place, image, hplace, hload ▸ hfile⟩
  · intro hsome
    obtain ⟨place, image, hplace, hfile⟩ := hsome
    refine ⟨joinPath backslash place, by rw [hplace]; rfl, image, ?_⟩
    exact hpath (List.mem_of_mem_head? hplace) hfile

end

/-- The walk can meet every such file. But the search succeeds only when one of the earlier
candidates loads, or the first file of that name in the order of the entries; where the walk is
not confused by equal names or cut by long paths, this is the first one in the tree. -/
theorem complete_iff {vol : Volume H I} {tree : FileTree I} {handleAt : Place → H}
    (h : Serves vol tree handleAt) :
    (∀ place, Good tree place → Loads vol (joinPath backslash place) ∧
      joinPath backslash place ∈ bootFiles vol fullPathCap maxDepth vol.root []) ∧
    (Complete vol tree ↔ (∀ place, ¬Good tree place) ∨
      (∃ path ∈ candidates vol, Loads vol path) ∨
      ∃ path, (bootFiles vol fullPathCap maxDepth vol.root []).head? = some path ∧
        Loads vol path) ∧
    (Walkable tree → (Complete vol tree ↔ (∀ place, ¬Good tree place) ∨
      (∃ path ∈ candidates vol, Loads vol path) ∨
      ∃ place image, (bootPlaces tree maxDepth []).head? = some place ∧
        tree.at place = some (.leaf (some image)))) := by
  have hcomplete : Complete vol tree ↔ (∀ place, ¬Good tree place) ∨
      (∃ path ∈ candidates vol, Loads vol path) ∨
      ∃ path, (bootFiles vol fullPathCap maxDepth vol.root []).head? = some path ∧
        Loads vol path := by
    rw [← tryOpenCandidates_some_iff]
    constructor
    · intro hcomplete
      by_cases hgood : ∃ place, Good tree place
      · obtain ⟨path, image, hrun, -⟩ := hcomplete hgood
        exact Or.inr (by rw [hrun]; simp)
      · exact Or.inl (not_exists.mp hgood)
    · rintro (hnone | hsome) hgood
      · obtain ⟨place, hplace⟩ := hgood
        exact absurd hplace (hnone place)
      · obtain ⟨⟨path, image⟩, hrun⟩ := Option.ne_none_iff_exists'.mp hsome
        exact ⟨path, image, hrun, tryOpenCandidates_loads hrun⟩
  refine ⟨?_, hcomplete, fun hwalk => ?_⟩
  · rintro place ⟨dirs, name, image, rfl, hdepth, hboot, hfits, hat⟩
    have hopen := h.fullPath _ (List.concat_ne_nil name dirs) (by rw [hat]; simp)
    have hload := h.loads _ _ hat
    refine ⟨⟨image, ?_⟩, ?_⟩
    · rw [tryPath, hopen]
      exact hload
    · have hmem := @mem_bootFiles H I vol tree handleAt fullPathCap maxDepth [] h dirs name _
        hat hboot hdepth hfits
      rw [h.root] at hmem
      exact hmem
  · rw [hcomplete, first_loads_iff hwalk h]

/-- A driver which opens the names in a directory and the full paths of places, and nothing
else. The image of a file is its only byte; a file which does not load is empty. -/
def strictVolume (tree : FileTree UInt8) : Volume Place UInt8 where
  root := []
  blessedInfo := none
  openAt h path :=
    match path with
    | [] => none
    | c :: rest =>
        let place := if c = backslash then splitAt backslash rest else h ++ [path]
        if (tree.at place).isSome then some place else none
  records h :=
    match tree.at h with
    | some (.node entries) => entries.map recordOf
    | _ => []
  fileSize h :=
    match tree.at h with
    | some (.leaf (some _)) => some 1
    | some (.leaf none) => some 0
    | _ => none
  readFile h _ :=
    match tree.at h with
    | some (.leaf (some image)) => some [image]
    | _ => none
  loadImage buf := buf.head?

theorem at_child {tree : FileTree I} {place : Place} {entries : List (Name × FileTree I)}
    (hat : tree.at place = some (.node entries)) {e : Name × FileTree I} (he : e ∈ entries) :
    (tree.at (place ++ [e.1.chars])).isSome := by
  unfold FileTree.at at hat ⊢
  rw [lookup_append, hat, Option.bind_some, NamedTree.lookup]
  cases hfind : entries.find? fun e' => e'.1.chars = e.1.chars with
  | none =>
      have hkey := List.find?_eq_none.mp hfind e he
      simp at hkey
  | some e' => simp

theorem noBackslash_of_at {tree t : FileTree I} {place : Place} (h : tree.at place = some t) :
    ∀ k ∈ place, backslash ∉ k := by
  intro k hk
  obtain ⟨n, rfl⟩ := exists_name_of_lookup h k hk
  exact n.noBackslash

/-- Every tree is the tree of a volume. -/
theorem serves_strictVolume (tree : FileTree UInt8) : Serves (strictVolume tree) tree id where
  root := rfl
  reads place entries hat := by
    have hrecords : (strictVolume tree).records (id place) = entries.map recordOf := by
      simp only [strictVolume, id_eq, hat]
    rw [hrecords, List.filter_eq_self]
    intro r hr
    obtain ⟨e, -, rfl⟩ := List.mem_map.mp hr
    rw [recordOf_name, e.1.plain]
    rfl
  child place entries hat e he := by
    have hchild := at_child hat he
    cases hchars : e.1.chars with
    | nil =>
        have hplain := e.1.plain
        rw [hchars] at hplain
        exact absurd hplain (by decide)
    | cons c rest =>
        have hc : c ≠ backslash := by
          rintro rfl
          exact e.1.noBackslash (hchars ▸ List.mem_cons_self)
        rw [hchars] at hchild
        simp only [strictVolume, if_neg hc, id_eq, hchild, if_true]
  fullPath place hne hat := by
    cases place with
    | nil => exact absurd rfl hne
    | cons k ks =>
        obtain ⟨t, ht⟩ := Option.ne_none_iff_exists'.mp hat
        have hkeys := noBackslash_of_at ht
        have hsplit : splitAt backslash (k ++ joinPath backslash ks) = k :: ks :=
          splitAt_join (hkeys k List.mem_cons_self) fun l hl => hkeys l (List.mem_cons_of_mem _ hl)
        rw [joinPath_cons]
        simp only [strictVolume, if_true, hsplit, ht, Option.isSome_some, id_eq]
  loads place image hat := by
    cases image with
    | none => simp [loadFile, strictVolume, hat]
    | some b => simp [loadFile, strictVolume, hat]

def bootEfiName : Name := ⟨charsOf "boot.efi", by decide, by decide, by decide, by decide⟩
def nameA : Name := ⟨charsOf "a", by decide, by decide, by decide, by decide⟩
def nameB : Name := ⟨charsOf "b", by decide, by decide, by decide, by decide⟩
def nameSub : Name := ⟨charsOf "sub", by decide, by decide, by decide, by decide⟩

/-- `\sub\sub\boot.efi` -/
def loaderBelow (image : Option UInt8) : FileTree UInt8 :=
  .node [(nameSub, .node [(nameSub, .node [(bootEfiName, .leaf image)])])]

theorem at_single {n : Name} {t found : FileTree I} {place : Place}
    (h : FileTree.at (.node [(n, t)]) place = some found) :
    place = [] ∧ found = .node [(n, t)] ∨
      ∃ below, place = n.chars :: below ∧ t.at below = some found := by
  cases place with
  | nil =>
      rw [FileTree.at, lookup_nil] at h
      exact Or.inl ⟨rfl, (Option.some.inj h).symm⟩
  | cons k below =>
      obtain ⟨entries, heq, e, he, hkey, hbelow, -⟩ := lookup_cons h
      cases heq
      rw [List.mem_singleton.mp he] at hkey hbelow
      exact Or.inr ⟨below, by rw [← hkey], hbelow⟩

theorem loaderBelow_places {image : Option UInt8} {place : Place} {found : FileTree UInt8}
    (h : (loaderBelow image).at place = some found) :
    (joinPath backslash place).length < fullPathCap ∧
      ∀ entries, found = .node entries → (entries.map fun e => e.1.chars).Nodup := by
  have hsingle (n : Name) (t : FileTree UInt8) (entries : List (Name × FileTree UInt8))
      (hnode : NamedTree.node [(n, t)] = .node entries) :
      (entries.map fun e => e.1.chars).Nodup := by
    cases hnode
    exact List.nodup_singleton _
  rcases at_single h with ⟨rfl, rfl⟩ | ⟨below, rfl, hbelow⟩
  · exact ⟨by decide, hsingle _ _⟩
  rcases at_single hbelow with ⟨rfl, rfl⟩ | ⟨below, rfl, hlast⟩
  · exact ⟨by decide +kernel, hsingle _ _⟩
  rcases at_single hlast with ⟨rfl, rfl⟩ | ⟨below, rfl, hfile⟩
  · exact ⟨by decide +kernel, hsingle _ _⟩
  cases below with
  | nil =>
      rw [FileTree.at, lookup_nil] at hfile
      cases hfile
      exact ⟨by decide +kernel, fun entries hnode => by cases hnode⟩
  | cons k below => cases hfile

theorem loaderBelow_walkable (image : Option UInt8) : Walkable (loaderBelow image) where
  directory := ⟨_, rfl⟩
  distinct _ entries hat := (loaderBelow_places hat).2 entries rfl
  fits place _ hat := by
    obtain ⟨found, hfound⟩ := Option.ne_none_iff_exists'.mp hat
    exact (loaderBelow_places hfound).1

theorem complete_oneLoader :
    Complete (strictVolume (loaderBelow (some 1))) (loaderBelow (some 1)) := by
  have hserves := serves_strictVolume (loaderBelow (some 1))
  apply ((complete_iff hserves).2.2 (loaderBelow_walkable (some 1))).mpr
  refine Or.inr (Or.inr ⟨[charsOf "sub", charsOf "sub", charsOf "boot.efi"], 1, ?_, ?_⟩)
  · decide +kernel
  · rfl

/-- An empty `boot.efi` below `a`, and one which loads below `b`. -/
def emptyFirst : FileTree UInt8 :=
  .node [(nameA, loaderBelow none), (nameB, loaderBelow (some 1))]

/-- The empty file is met first, and the search gives up. -/
theorem empty_file_ends_search : Serves (strictVolume emptyFirst) emptyFirst id ∧
    (∃ place, Good emptyFirst place) ∧ tryOpenCandidates (strictVolume emptyFirst) = none ∧
      ¬Complete (strictVolume emptyFirst) emptyFirst := by
  have hgood : Good emptyFirst [charsOf "b", charsOf "sub", charsOf "sub", charsOf "boot.efi"] :=
    ⟨[charsOf "b", charsOf "sub", charsOf "sub"], charsOf "boot.efi", 1, rfl, by decide, by decide,
      by decide +kernel, rfl⟩
  have hrun : tryOpenCandidates (strictVolume emptyFirst) = none := by decide +kernel
  refine ⟨serves_strictVolume emptyFirst, ⟨_, hgood⟩, hrun, fun hcomplete => ?_⟩
  obtain ⟨path, image, hsome, -⟩ := hcomplete ⟨_, hgood⟩
  rw [hrun] at hsome
  exact absurd hsome (by simp)

end BankFinder.SearchComplete
