import BankFinder.BootSearch
import BankFinder.FixedBuffer

/-!
# The paths of the directory probes

Tiers 2 and 3 of `try_open_candidates` put directory names in front of the known paths. Both write
into `full_path`, the first with `path_join`, the second with code of its own. The names come from
snapshots with slots of 64 characters. `path_join` writes a backslash between prefix and name, and
is given a backslash as the prefix.
-/

namespace BankFinder.CandidatePaths
open BoundedCursor FixedBuffer TaggedNodes DevicePaths BootSearch

variable {H I : Type}

def isNul (c : UInt16) : Bool := c == 0

/-- `if (pos + 1 < cap) out[pos++] = L'\\';` -/
def putBackslash (cap : ℕ) (out : List UInt16) (pos : ℕ) : Except OutOfBounds (ℕ × List UInt16) :=
  if pos + 1 < cap then do
    let out ← put out pos backslash
    return (pos + 1, out)
  else .ok (pos, out)

/-- `path_join`, into the array `out` of `cap` units. -/
def pathJoinInto (cap : ℕ) (out pre name suffix : List UInt16) :
    Except OutOfBounds (List UInt16) := do
  let (pos, out) ← putWhile isNul cap out 0 pre
  let (pos, out) ← putBackslash cap out pos
  let (pos, out) ← putWhile isNul cap out pos name
  let (pos, out) ← putWhile isNul cap out pos suffix
  put out pos 0

/-- The path of a directory in a directory. The backslashes are stored without a test. -/
def nestedInto (cap : ℕ) (out name name2 : List UInt16) : Except OutOfBounds (List UInt16) := do
  let out ← put out 0 backslash
  let (pos, out) ← putWhile isNul cap out 1 name
  let out ← put out pos backslash
  let (pos, out) ← putWhile isNul cap out (pos + 1) name2
  let (pos, out) ← putWhile isNul cap out pos macosBootSuffix
  put out pos 0

/-- `list_child_dirs`; `names` are the slots of the snapshot, of which `n` are in use. -/
def listChildDirsInto : List Record → ℕ → List (List UInt16) →
    Except OutOfBounds (ℕ × List (List UInt16))
  | [], n, names => .ok (n, names)
  | r :: records, n, names =>
      if skipped r.name then listChildDirsInto records n names
      else do
        let slot ← deref names n
        let (k, slot) ← putWhile isNul maxDirnameChars slot 0 r.name
        let slot ← put slot k 0
        let names ← put names n slot
        if maxLevelDirs ≤ n + 1 then return (n + 1, names)
        else listChildDirsInto records (n + 1) names

/-- The arrays of the two tiers, and the paths which were passed to `Open`. -/
structure Probe where
  fullPath : List UInt16
  dirOnly : List UInt16
  level1 : List (List UInt16)
  level2 : List (List UInt16)
  opened : List (List UInt16)

/-- `try_path` on what `full_path` holds. -/
def tryFullPath (vol : Volume H I) (b : Probe) : Option I × Probe :=
  (tryPath vol (textOf b.fullPath), { b with opened := b.opened ++ [textOf b.fullPath] })

/-- Tier 2 for one directory. -/
def probeAlts (vol : Volume H I) (name : List UInt16) :
    List (List UInt16) → Probe → Except OutOfBounds (Option I × Probe)
  | [], b => .ok (none, b)
  | alt :: alts, b => do
      let fullPath ← pathJoinInto fullPathCap b.fullPath [backslash] name alt
      let r := tryFullPath vol { b with fullPath := fullPath }
      if r.1.isSome then return r else probeAlts vol name alts r.2

/-- The loop of tier 3 over the children of a directory. -/
def probeChildren (vol : Volume H I) (name : List UInt16) :
    List (List UInt16) → Probe → Except OutOfBounds (Option I × Probe)
  | [], b => .ok (none, b)
  | name2 :: children, b => do
      let fullPath ← nestedInto fullPathCap b.fullPath name name2
      let r := tryFullPath vol { b with fullPath := fullPath }
      if r.1.isSome then return r else probeChildren vol name children r.2

/-- The names in the first slots of a snapshot. -/
def slotNames (n : ℕ) (names : List (List UInt16)) : List (List UInt16) := (names.take n).map textOf

/-- Tier 3 for one directory. -/
def probeDir (vol : Volume H I) (name : List UInt16) (b : Probe) :
    Except OutOfBounds (Option I × Probe) := do
  let dirOnly ← pathJoinInto dirOnlyCap b.dirOnly [backslash] name []
  let b := { b with dirOnly := dirOnly }
  match vol.openAt vol.root (textOf dirOnly) with
  | none => return (none, b)
  | some sub =>
      let (n2, level2) ← listChildDirsInto (vol.records sub) 0 b.level2
      probeChildren vol name (slotNames n2 level2) { b with level2 := level2 }

def probeDirs (vol : Volume H I) : List (List UInt16) → Probe →
    Except OutOfBounds (Option I × Probe)
  | [], b => .ok (none, b)
  | name :: names, b => do
      let r ← probeAlts vol name macosAltPaths b
      if r.1.isSome then return r
      else
        let r ← probeDir vol name r.2
        if r.1.isSome then return r else probeDirs vol names r.2

/-- Tiers 2 and 3. -/
def probe (vol : Volume H I) (b : Probe) : Except OutOfBounds (Option I × Probe) := do
  let (n1, level1) ← listChildDirsInto (vol.records vol.root) 0 b.level1
  probeDirs vol (slotNames n1 level1) { b with level1 := level1 }

/-- The array holds the text and its NUL. -/
structure Carries (cap : ℕ) (text buf : List UInt16) : Prop where
  begins : Begins cap (text ++ [0]) buf
  plain : 0 ∉ text

theorem Carries.textOf {cap : ℕ} {text buf : List UInt16} (h : Carries cap text buf) :
    textOf buf = text := by
  obtain ⟨rest, hrest⟩ := h.begins.text
  rw [← hrest, List.append_assoc]
  exact textOf_terminated h.plain rest

theorem kept_isNul (room : ℕ) (src : List UInt16) :
    kept isNul room src = (textOf src).take room := by
  unfold kept TaggedNodes.textOf
  congr 2
  funext c
  by_cases hc : c = 0 <;> simp [isNul, hc]

/-- The copy loop does what `copyUnits` does with the text. -/
theorem putWhile_copyUnits {cap : ℕ} {out buf : List UInt16} (h : Begins cap out buf)
    (hlt : out.length < cap) (src : List UInt16) :
    ∃ buf', putWhile isNul cap buf out.length src =
        .ok ((copyUnits cap out src).length, buf') ∧ Begins cap (copyUnits cap out src) buf' := by
  rw [copyUnits_eq src hlt, ← kept_isNul]
  exact h.putWhile le_rfl hlt isNul src

theorem copyUnits_plain {cap : ℕ} {out : List UInt16} (h : 0 ∉ out) (src : List UInt16) :
    0 ∉ copyUnits cap out src := by
  induction src generalizing out with
  | nil => exact h
  | cons c src ih =>
      unfold copyUnits
      split_ifs with hc
      · refine ih ?_
        rw [List.mem_append, List.mem_singleton, not_or]
        exact ⟨h, Ne.symm hc.1⟩
      · exact h

/-- The NUL behind the text. -/
theorem Carries.of_put {cap : ℕ} {text buf : List UInt16} (h : Begins cap text buf)
    (hlt : text.length < cap) (hplain : 0 ∉ text) :
    ∃ buf', put buf text.length 0 = .ok buf' ∧ Carries cap text buf' := by
  obtain ⟨buf', hput, hbegins⟩ := h.put hlt 0
  exact ⟨buf', hput, hbegins, hplain⟩

theorem putBackslash_copyUnits {cap : ℕ} {out buf : List UInt16} (h : Begins cap out buf)
    (hlt : out.length < cap) :
    ∃ buf', putBackslash cap buf out.length =
        .ok ((copyUnits cap out [backslash]).length, buf') ∧
      Begins cap (copyUnits cap out [backslash]) buf' := by
  unfold putBackslash copyUnits
  by_cases hroom : out.length + 1 < cap
  · obtain ⟨buf', hput, hbegins⟩ := h.put hlt backslash
    have hgo : backslash ≠ 0 ∧ out.length + 1 < cap := ⟨by decide, hroom⟩
    rw [if_pos hroom, if_pos hgo, hput, ok_bind, copyUnits, List.length_append]
    exact ⟨buf', rfl, hbegins⟩
  · rw [if_neg hroom, if_neg fun hgo => hroom hgo.2]
    exact ⟨buf, rfl, h⟩

theorem pathJoinInto_ok {cap : ℕ} {buf : List UInt16} (hsize : buf.length = cap) (hcap : 0 < cap)
    (pre name suffix : List UInt16) :
    ∃ buf', pathJoinInto cap buf pre name suffix = .ok buf' ∧
      Carries cap (pathJoin cap pre name suffix) buf' := by
  obtain ⟨buf₁, h₁, hb₁⟩ := putWhile_copyUnits (begins_nil hsize) hcap pre
  have hlt₁ : (copyUnits cap [] pre).length < cap := length_copyUnits_lt pre hcap
  obtain ⟨buf₂, h₂, hb₂⟩ := putBackslash_copyUnits hb₁ hlt₁
  have hlt₂ := length_copyUnits_lt [backslash] hlt₁
  obtain ⟨buf₃, h₃, hb₃⟩ := putWhile_copyUnits hb₂ hlt₂ name
  have hlt₃ := length_copyUnits_lt name hlt₂
  obtain ⟨buf₄, h₄, hb₄⟩ := putWhile_copyUnits hb₃ hlt₃ suffix
  have hplain : 0 ∉ pathJoin cap pre name suffix :=
    copyUnits_plain (copyUnits_plain (copyUnits_plain (copyUnits_plain List.not_mem_nil _) _) _) _
  obtain ⟨buf₅, h₅, hcarries⟩ := Carries.of_put hb₄ (length_copyUnits_lt suffix hlt₃) hplain
  refine ⟨buf₅, ?_, hcarries⟩
  unfold pathJoinInto
  rw [List.length_nil] at h₁
  simp only [h₁, h₂, h₃, h₄, h₅, ok_bind]

/-- Behind a name of fewer than 64 characters there is room for the second backslash. -/
theorem nestedInto_ok {buf name : List UInt16} (hsize : buf.length = fullPathCap)
    (hname : name.length < maxDirnameChars) (name2 : List UInt16) :
    ∃ buf', nestedInto fullPathCap buf name name2 = .ok buf' ∧
      Carries fullPathCap (nestedPath name name2) buf' := by
  have hshort : (copyUnits fullPathCap [backslash] name).length ≤ maxDirnameChars := by
    rw [copyUnits_eq name (by decide), List.length_append, List.length_take, List.length_singleton]
    have htext : (TaggedNodes.textOf name).length ≤ name.length :=
      (List.takeWhile_prefix _).length_le
    omega
  have hcap : fullPathCap = 512 := rfl
  unfold maxDirnameChars at hshort
  have hone : [backslash].length < fullPathCap := by decide
  have hfirst : ∃ buf', put buf 0 backslash = .ok buf' ∧ Begins fullPathCap [backslash] buf' :=
    (begins_nil hsize).put (by decide) backslash
  obtain ⟨buf₁, h₁, hb₁⟩ := hfirst
  obtain ⟨buf₂, h₂, hb₂⟩ := putWhile_copyUnits hb₁ hone name
  have hlt₂ : (copyUnits fullPathCap [backslash] name).length + 1 < fullPathCap := by
    omega
  obtain ⟨buf₃, h₃, hb₃⟩ := hb₂.put (Nat.lt_of_succ_lt hlt₂) backslash
  have hlen : (copyUnits fullPathCap [backslash] name ++ [backslash]).length =
      (copyUnits fullPathCap [backslash] name).length + 1 := List.length_append
  have hlt₃ : (copyUnits fullPathCap [backslash] name ++ [backslash]).length < fullPathCap := by
    rw [hlen]
    exact hlt₂
  obtain ⟨buf₄, h₄, hb₄⟩ := putWhile_copyUnits hb₃ hlt₃ name2
  have hlt₄ := length_copyUnits_lt name2 hlt₃
  obtain ⟨buf₅, h₅, hb₅⟩ := putWhile_copyUnits hb₄ hlt₄ macosBootSuffix
  have hplain : 0 ∉ nestedPath name name2 := by
    have hstart : 0 ∉ [backslash] := by decide
    have hdir : 0 ∉ copyUnits fullPathCap [backslash] name ++ [backslash] := by
      rw [List.mem_append, not_or]
      exact ⟨copyUnits_plain hstart name, hstart⟩
    exact copyUnits_plain (copyUnits_plain hdir name2) macosBootSuffix
  obtain ⟨buf₆, h₆, hcarries⟩ := Carries.of_put hb₅ (length_copyUnits_lt macosBootSuffix hlt₄) hplain
  refine ⟨buf₆, ?_, hcarries⟩
  unfold nestedInto
  rw [List.length_singleton] at h₂
  rw [hlen] at h₄
  simp only [h₁, h₂, h₃, h₄, h₅, h₆, ok_bind]

/-- The first slots of a snapshot hold these names. -/
structure Slots (texts names : List (List UInt16)) : Prop where
  used : ∃ slots, Begins maxLevelDirs slots names ∧ slots.map TaggedNodes.textOf = texts
  width : ∀ slot ∈ names, slot.length = maxDirnameChars

/-- A further slot. -/
theorem Slots.put {texts names : List (List UInt16)} (h : Slots texts names)
    (hroom : texts.length < maxLevelDirs) {text slot : List UInt16}
    (hslot : Carries maxDirnameChars text slot) :
    ∃ names', put names texts.length slot = .ok names' ∧ Slots (texts ++ [text]) names' := by
  obtain ⟨slots, hbegins, hmap⟩ := h.used
  have hcount : slots.length = texts.length := by rw [← hmap, List.length_map]
  obtain ⟨names', hput, hbegins'⟩ := hbegins.put (hcount ▸ hroom) slot
  refine ⟨names', hcount ▸ hput, ⟨slots ++ [slot], hbegins', ?_⟩, ?_⟩
  · rw [List.map_append, hmap, List.map_singleton, hslot.textOf]
  · intro other hother
    rcases mem_of_put hput hother with hold | rfl
    · exact h.width other hold
    · exact hslot.begins.size

theorem listChildDirsInto_ok (records : List Record) {texts names : List (List UInt16)}
    (h : Slots texts names) (hroom : texts.length < maxLevelDirs) :
    ∃ names', listChildDirsInto records texts.length names =
        .ok ((listChildDirs records texts).length, names') ∧
      Slots (listChildDirs records texts) names' := by
  induction records generalizing texts names with
  | nil => exact ⟨names, rfl, h⟩
  | cons r records ih =>
      unfold listChildDirsInto listChildDirs
      by_cases hskip : skipped r.name = true
      · rw [if_pos hskip, if_pos hskip]
        exact ih h hroom
      rw [if_neg hskip, if_neg hskip]
      obtain ⟨slots, hbegins, -⟩ := h.used
      have hin : texts.length < names.length := hbegins.size ▸ hroom
      have hslot := h.width _ (List.getElem_mem hin)
      have hderef : deref names texts.length = .ok names[texts.length] := by
        unfold deref
        rw [List.getElem?_eq_getElem hin]
      obtain ⟨slot₁, h₁, hb₁⟩ := putWhile_copyUnits (begins_nil hslot) (by decide) r.name
      have hlt : (copyUnits maxDirnameChars [] r.name).length < maxDirnameChars :=
        length_copyUnits_lt r.name (by decide)
      obtain ⟨slot₂, h₂, hcarries⟩ :=
        Carries.of_put hb₁ hlt (copyUnits_plain List.not_mem_nil r.name)
      obtain ⟨names', h₃, hslots⟩ := h.put hroom hcarries
      have hlen : (texts ++ [copyUnits maxDirnameChars [] r.name]).length = texts.length + 1 :=
        List.length_append
      rw [List.length_nil] at h₁
      simp only [hderef, h₁, h₂, h₃, ok_bind, hlen]
      by_cases hfull : maxLevelDirs ≤ texts.length + 1
      · rw [if_pos hfull, if_pos hfull, hlen]
        exact ⟨names', rfl, hslots⟩
      · rw [if_neg hfull, if_neg hfull, ← hlen]
        exact ih hslots (by omega)

theorem Slots.names {texts names : List (List UInt16)} (h : Slots texts names) :
    slotNames texts.length names = texts := by
  obtain ⟨slots, hbegins, hmap⟩ := h.used
  obtain ⟨rest, hrest⟩ := hbegins.text
  have hcount : slots.length = texts.length := by rw [← hmap, List.length_map]
  unfold slotNames
  rw [← hrest, ← hcount, List.take_left, hmap]

/-- The names of a snapshot are cut. -/
theorem listChildDirs_short (records : List Record) {texts : List (List UInt16)}
    (h : ∀ t ∈ texts, t.length < maxDirnameChars) :
    ∀ t ∈ listChildDirs records texts, t.length < maxDirnameChars := by
  induction records generalizing texts with
  | nil => exact h
  | cons r records ih =>
      have hnext : ∀ t ∈ texts ++ [copyUnits maxDirnameChars [] r.name],
          t.length < maxDirnameChars := by
        intro t ht
        rcases List.mem_append.mp ht with ht | ht
        · exact h t ht
        · rw [List.mem_singleton.mp ht]
          exact length_copyUnits_lt r.name (by decide)
      unfold listChildDirs
      simp only
      split_ifs
      · exact ih h
      · exact hnext
      · exact ih hnext

/-- The paths up to the first which loads. -/
def attempted (vol : Volume H I) : List (List UInt16) → List (List UInt16)
  | [] => []
  | path :: paths => if (tryPath vol path).isSome then [path] else path :: attempted vol paths

structure Sized (b : Probe) : Prop where
  fullPath : b.fullPath.length = fullPathCap
  dirOnly : b.dirOnly.length = dirOnlyCap
  level1 : Slots [] b.level1
  level2 : Slots [] b.level2

theorem Slots.forget {texts names : List (List UInt16)} (h : Slots texts names) :
    Slots [] names := by
  obtain ⟨slots, hbegins, -⟩ := h.used
  exact ⟨⟨[], begins_nil hbegins.size, rfl⟩, h.width⟩

/-- A part of the probing tried these paths, and gave the first image. -/
structure Done (vol : Volume H I) (paths : List (List UInt16)) (b : Probe)
    (r : Option I × Probe) : Prop where
  result : r.1 = (tryPaths vol paths).map Prod.snd
  opened : r.2.opened = b.opened ++ attempted vol paths
  sized : Sized r.2

section
variable {vol : Volume H I} {paths more : List (List UInt16)} {b : Probe} {r r' : Option I × Probe}

theorem tryPaths_append : tryPaths vol (paths ++ more) =
    (tryPaths vol paths).or (tryPaths vol more) := List.findSome?_append

theorem attempted_append : attempted vol (paths ++ more) =
    if (tryPaths vol paths).isSome then attempted vol paths
    else attempted vol paths ++ attempted vol more := by
  induction paths with
  | nil => rfl
  | cons path paths ih =>
      unfold tryPaths at ih ⊢
      rw [List.cons_append, attempted, attempted, List.findSome?_cons, ih]
      cases tryPath vol path with
      | some image => rfl
      | none =>
          simp only [Option.isSome_none, Option.map_none, Bool.false_eq_true, if_false]
          split_ifs <;> rfl

theorem Done.isSome (h : Done vol paths b r) : r.1.isSome = (tryPaths vol paths).isSome := by
  rw [h.result, Option.isSome_map]

/-- When an image was found the paths behind are not tried. -/
theorem Done.stop (h : Done vol paths b r) (hfound : r.1.isSome = true)
    (more : List (List UInt16)) : Done vol (paths ++ more) b r := by
  rw [h.isSome] at hfound
  refine ⟨?_, ?_, h.sized⟩
  · rw [h.result, tryPaths_append, Option.or_of_isSome hfound]
  · rw [h.opened, attempted_append, if_pos hfound]

theorem Done.next (h : Done vol paths b r) (hnone : ¬r.1.isSome = true)
    (h' : Done vol more r.2 r') : Done vol (paths ++ more) b r' := by
  rw [h.isSome] at hnone
  refine ⟨?_, ?_, h'.sized⟩
  · rw [h'.result, tryPaths_append, Option.not_isSome_iff_eq_none.mp hnone, Option.none_or]
  · rw [h'.opened, h.opened, attempted_append, if_neg hnone, List.append_assoc]

theorem done_nil (h : Sized b) : Done vol [] b (none, b) :=
  ⟨rfl, (List.append_nil _).symm, h⟩

variable (vol)

/-- `try_path` on a path which has been written. -/
theorem tryFullPath_done (h : Sized b) {path : List UInt16} {buf : List UInt16}
    (hbuf : Carries fullPathCap path buf) :
    Done vol [path] b (tryFullPath vol { b with fullPath := buf }) := by
  unfold tryFullPath
  simp only [hbuf.textOf]
  refine ⟨?_, ?_, hbuf.begins.size, h.dirOnly, h.level1, h.level2⟩
  · unfold tryPaths
    rw [List.findSome?_cons, List.findSome?_nil]
    cases tryPath vol path <;> rfl
  · unfold attempted attempted
    rw [ite_self]

/-- The turn of a loop over paths: the path has been written, and `rest` tries the others. -/
theorem turn_done (h : Sized b) {path buf : List UInt16} (hbuf : Carries fullPathCap path buf)
    {rest : Probe → Except OutOfBounds (Option I × Probe)}
    (hrest : ∀ b', Sized b' → ∃ r, rest b' = .ok r ∧ Done vol paths b' r) :
    ∃ r, (if (tryFullPath vol { b with fullPath := buf }).1.isSome then
        .ok (tryFullPath vol { b with fullPath := buf })
      else rest (tryFullPath vol { b with fullPath := buf }).2) = .ok r ∧
      Done vol (path :: paths) b r := by
  have hdone := tryFullPath_done vol h hbuf
  by_cases hfound : (tryFullPath vol { b with fullPath := buf }).1.isSome = true
  · rw [if_pos hfound]
    exact ⟨_, rfl, hdone.stop hfound paths⟩
  · rw [if_neg hfound]
    obtain ⟨r, hr, hmore⟩ := hrest _ hdone.sized
    exact ⟨r, hr, hdone.next hfound hmore⟩

theorem probeAlts_done (name : List UInt16) (alts : List (List UInt16)) (h : Sized b) :
    ∃ r, probeAlts vol name alts b = .ok r ∧
      Done vol (alts.map (pathJoin fullPathCap [backslash] name)) b r := by
  induction alts generalizing b with
  | nil => exact ⟨_, rfl, done_nil h⟩
  | cons alt alts ih =>
      obtain ⟨buf, hbuf, hcarries⟩ :=
        pathJoinInto_ok h.fullPath (by decide) [backslash] name alt
      unfold probeAlts
      simp only [hbuf, ok_bind]
      exact turn_done vol h hcarries fun b' hb' => ih hb'

theorem probeChildren_done {name : List UInt16} (hname : name.length < maxDirnameChars)
    (children : List (List UInt16)) (h : Sized b) :
    ∃ r, probeChildren vol name children b = .ok r ∧
      Done vol (children.map (nestedPath name)) b r := by
  induction children generalizing b with
  | nil => exact ⟨_, rfl, done_nil h⟩
  | cons name2 children ih =>
      obtain ⟨buf, hbuf, hcarries⟩ := nestedInto_ok h.fullPath hname name2
      unfold probeChildren
      simp only [hbuf, ok_bind]
      exact turn_done vol h hcarries fun b' hb' => ih hb'

theorem probeDir_done {name : List UInt16} (hname : name.length < maxDirnameChars) (h : Sized b) :
    ∃ r, probeDir vol name b = .ok r ∧ Done vol (tier3 vol name) b r := by
  obtain ⟨buf, hbuf, hcarries⟩ := pathJoinInto_ok h.dirOnly (by decide) [backslash] name []
  unfold probeDir tier3
  simp only [hbuf, ok_bind, hcarries.textOf]
  cases vol.openAt vol.root (pathJoin dirOnlyCap [backslash] name []) with
  | none =>
      exact ⟨_, rfl, rfl, (List.append_nil _).symm, h.fullPath, hcarries.begins.size, h.level1,
        h.level2⟩
  | some sub =>
      obtain ⟨level2, hlist, hslots⟩ :=
        listChildDirsInto_ok (vol.records sub) h.level2 (by decide)
      rw [List.length_nil] at hlist
      simp only [hlist, ok_bind, hslots.names]
      have hsized : Sized { b with dirOnly := buf, level2 := level2 } :=
        ⟨h.fullPath, hcarries.begins.size, h.level1, hslots.forget⟩
      obtain ⟨r, hr, hdone⟩ := probeChildren_done vol hname
        (listChildDirs (vol.records sub) []) hsized
      exact ⟨r, hr, hdone.result, hdone.opened, hdone.sized⟩

theorem probeDirs_done {names : List (List UInt16)}
    (hnames : ∀ name ∈ names, name.length < maxDirnameChars) (h : Sized b) :
    ∃ r, probeDirs vol names b = .ok r ∧
      Done vol (names.flatMap fun name => tier2 name ++ tier3 vol name) b r := by
  induction names generalizing b with
  | nil => exact ⟨_, rfl, done_nil h⟩
  | cons name names ih =>
      rw [List.forall_mem_cons] at hnames
      obtain ⟨r₁, h₁, hdone₁⟩ := probeAlts_done vol name macosAltPaths h
      rw [List.flatMap_cons, List.append_assoc]
      unfold probeDirs
      simp only [h₁, ok_bind]
      by_cases hfound₁ : r₁.1.isSome = true
      · rw [if_pos hfound₁]
        exact ⟨r₁, rfl, hdone₁.stop hfound₁ _⟩
      rw [if_neg hfound₁]
      obtain ⟨r₂, h₂, hdone₂⟩ := probeDir_done vol hnames.1 hdone₁.sized
      simp only [h₂, ok_bind]
      by_cases hfound₂ : r₂.1.isSome = true
      · rw [if_pos hfound₂]
        exact ⟨r₂, rfl, hdone₁.next hfound₁ (hdone₂.stop hfound₂ _)⟩
      rw [if_neg hfound₂]
      obtain ⟨r₃, h₃, hdone₃⟩ := ih hnames.2 hdone₂.sized
      exact ⟨r₃, h₃, hdone₁.next hfound₁ (hdone₂.next hfound₂ hdone₃)⟩

end

/-- The arrays as they are before the search of a volume. -/
structure Buffers where
  fullPath : List UInt16
  dirOnly : List UInt16
  level1 : List (List UInt16)
  level2 : List (List UInt16)
  fullPath_size : fullPath.length = fullPathCap
  dirOnly_size : dirOnly.length = dirOnlyCap
  level1_size : Slots [] level1
  level2_size : Slots [] level2

def Buffers.probe (b : Buffers) : Probe := ⟨b.fullPath, b.dirOnly, b.level1, b.level2, []⟩

/-- The paths of tiers 0 and 1. -/
def firstTiers (vol : Volume H I) : List (List UInt16) :=
  (appleBlessGetPath vol.blessedInfo fullPathCap).toList ++ macosAltPaths

/-- The paths which `try_open_candidates` passes to `Open` in tiers 2 and 3. -/
def probedPaths (vol : Volume H I) (b : Buffers) : Except OutOfBounds (List (List UInt16)) :=
  if (tryPaths vol (firstTiers vol)).isSome then .ok []
  else do
    let r ← CandidatePaths.probe vol b.probe
    return r.2.opened

/-- No two backslashes stand side by side, and none at the end. -/
def NoEmptyComponent (path : List UInt16) : Prop := [] ∉ (path.splitOn backslash).tail

/-- A path as the comment above `try_open_candidates` describes it. -/
structure Documented (vol : Volume H I) (path : List UInt16) : Prop where
  form : ∃ r ∈ vol.records vol.root, (∃ suffix ∈ macosAltPaths,
      path = backslash :: r.name ++ suffix) ∨
    ∃ sub, vol.openAt vol.root (pathJoin dirOnlyCap [backslash] r.name []) = some sub ∧
      ∃ child ∈ vol.records sub,
        path = backslash :: r.name ++ backslash :: child.name ++ macosBootSuffix
  components : NoEmptyComponent path

def HasForm (vol : Volume H I) (b : Buffers) : Prop :=
  ∃ paths, probedPaths vol b = .ok paths ∧ ∀ path ∈ paths, Documented vol path

section
variable {vol : Volume H I}

/-- The paths are those of the list program, and no store is outside of an array. -/
theorem probedPaths_ok (vol : Volume H I) (b : Buffers) : probedPaths vol b =
    .ok (if (tryPaths vol (firstTiers vol)).isSome then []
      else attempted vol ((listChildDirs (vol.records vol.root) []).flatMap fun name =>
        tier2 name ++ tier3 vol name)) := by
  have hsized : Sized b.probe := ⟨b.fullPath_size, b.dirOnly_size, b.level1_size, b.level2_size⟩
  obtain ⟨level1, hlist, hslots⟩ :=
    listChildDirsInto_ok (vol.records vol.root) hsized.level1 (by decide)
  have hnames := listChildDirs_short (vol.records vol.root)
    (fun t (ht : t ∈ []) => absurd ht List.not_mem_nil)
  have hsized' : Sized { b.probe with level1 := level1 } :=
    ⟨hsized.fullPath, hsized.dirOnly, hslots.forget, hsized.level2⟩
  obtain ⟨r, hr, hdone⟩ := probeDirs_done vol hnames hsized'
  rw [List.length_nil] at hlist
  unfold probedPaths
  split_ifs
  · rfl
  · unfold CandidatePaths.probe
    simp only [hlist, ok_bind, hslots.names, hr, hdone.opened]
    rfl

/-- What `path_join` makes of a name: one backslash more than the other builder. -/
theorem tier2_path {name alt : List UInt16} (hname : name.length < maxDirnameChars)
    (halt : alt ∈ macosAltPaths) : pathJoin fullPathCap [backslash] name alt =
      backslash :: backslash :: textOf name ++ alt := by
  have htext : (textOf name).length ≤ name.length := (List.takeWhile_prefix _).length_le
  have hshort : alt.length < 64 ∧ textOf alt = alt := by
    have hall : ∀ alt ∈ macosAltPaths, alt.length < 64 ∧ textOf alt = alt := by decide
    exact hall alt halt
  have hpre : copyUnits fullPathCap (copyUnits fullPathCap [] [backslash]) [backslash] =
      [backslash, backslash] := by decide
  have hcap : fullPathCap = 512 := rfl
  unfold maxDirnameChars at hname
  unfold pathJoin
  simp only [hpre]
  rw [copyUnits_eq name (by decide), copyUnits_eq alt (by
      rw [List.length_append, List.length_take, List.length_cons, List.length_singleton]
      omega),
    hshort.2, List.take_of_length_le (l := textOf name) (by
      rw [List.length_cons, List.length_singleton]
      omega),
    List.take_of_length_le (by
      rw [List.length_append, List.length_cons, List.length_singleton]
      omega)]
  rfl

/-- The backslash too many is an empty component. -/
theorem tier2_not_documented {name path : List UInt16} (hname : name.length < maxDirnameChars)
    (h : path ∈ tier2 name) : ¬Documented vol path := by
  obtain ⟨alt, halt, rfl⟩ := List.mem_map.mp h
  intro hdoc
  refine hdoc.components ?_
  rw [tier2_path hname halt]
  unfold List.splitOn
  rw [List.cons_append, List.splitOnP_cons_eq_if_modifyHead, if_pos (by decide), List.tail_cons,
    List.cons_append, List.splitOnP_cons_eq_if_modifyHead, if_pos (by decide)]
  exact List.mem_cons_self

theorem prefix_listChildDirs (records : List Record) (texts : List (List UInt16)) :
    texts <+: listChildDirs records texts := by
  induction records generalizing texts with
  | nil => exact List.prefix_rfl
  | cons r records ih =>
      unfold listChildDirs
      simp only
      split_ifs
      · exact ih texts
      · exact List.prefix_append _ _
      · exact (List.prefix_append _ _).trans (ih _)

/-- Nothing is listed where every entry is passed over. -/
theorem listChildDirs_eq_nil_iff (records : List Record) :
    listChildDirs records [] = [] ↔ ∀ r ∈ records, skipped r.name = true := by
  induction records with
  | nil => simp [listChildDirs]
  | cons r records ih =>
      rw [List.forall_mem_cons]
      unfold listChildDirs
      by_cases hskip : skipped r.name = true
      · rw [if_pos hskip, ih]
        exact ⟨fun h => ⟨hskip, h⟩, And.right⟩
      · rw [if_neg hskip]
        refine ⟨fun h => ?_, fun h => absurd h.1 hskip⟩
        simp only [List.nil_append, List.length_singleton] at h
        rw [if_neg (by decide)] at h
        have hle := (prefix_listChildDirs records [copyUnits maxDirnameChars [] r.name]).length_le
        rw [h] at hle
        exact absurd hle (Nat.not_succ_le_zero 0)

/-- Tier 2 opens a path of another form first. -/
theorem not_hasForm (b : Buffers) (hfirst : ¬(tryPaths vol (firstTiers vol)).isSome = true)
    (hlisted : listChildDirs (vol.records vol.root) [] ≠ []) : ¬HasForm vol b := by
  have hnames := listChildDirs_short (vol.records vol.root)
    (fun t (ht : t ∈ []) => absurd ht List.not_mem_nil)
  obtain ⟨name, names, hlist⟩ := List.exists_cons_of_ne_nil hlisted
  have htier : ∃ path more, tier2 name = path :: more := ⟨_, _, rfl⟩
  obtain ⟨path, more, htier⟩ := htier
  have hpath : path ∈ tier2 name := htier ▸ List.mem_cons_self
  intro h
  obtain ⟨paths, hpaths, hdoc⟩ := h
  rw [probedPaths_ok, if_neg hfirst, hlist] at hpaths
  rw [hlist] at hnames
  obtain rfl := Except.ok.inj hpaths
  refine absurd (hdoc path ?_) (tier2_not_documented (hnames name List.mem_cons_self) hpath)
  rw [List.flatMap_cons, htier, List.cons_append, List.cons_append, attempted]
  split_ifs
  · exact List.mem_singleton_self path
  · exact List.mem_cons_self

/-- Where nothing is opened there is nothing to have a form. -/
theorem hasForm_of_none (b : Buffers) (h : (tryPaths vol (firstTiers vol)).isSome = true ∨
    listChildDirs (vol.records vol.root) [] = []) : HasForm vol b := by
  refine ⟨[], ?_, fun path hpath => absurd hpath List.not_mem_nil⟩
  rw [probedPaths_ok]
  rcases h with hfirst | hnone
  · rw [if_pos hfirst]
  · rw [hnone, List.flatMap_nil, attempted, ite_self]

end

/-- Every store of tiers 2 and 3 is inside its array. The paths have the documented form exactly
when there are none. -/
theorem hasForm_iff (vol : Volume H I) (b : Buffers) :
    (∃ paths, probedPaths vol b = .ok paths) ∧
      (HasForm vol b ↔ (tryPaths vol (firstTiers vol)).isSome = true ∨
        ∀ r ∈ vol.records vol.root, skipped r.name = true) := by
  refine ⟨⟨_, probedPaths_ok vol b⟩, ?_⟩
  rw [← listChildDirs_eq_nil_iff]
  constructor
  · intro h
    by_contra hnot
    rw [not_or] at hnot
    exact not_hasForm b hnot.1 hnot.2 h
  · exact hasForm_of_none b

def oneDirectory : Volume Unit Unit where
  root := ()
  blessedInfo := none
  openAt _ _ := none
  records _ := [⟨charsOf "a", true⟩]
  fileSize _ := none
  readFile _ _ := none
  loadImage _ := none

def zeroBuffers : Buffers where
  fullPath := List.replicate fullPathCap 0
  dirOnly := List.replicate dirOnlyCap 0
  level1 := List.replicate maxLevelDirs (List.replicate maxDirnameChars 0)
  level2 := List.replicate maxLevelDirs (List.replicate maxDirnameChars 0)
  fullPath_size := List.length_replicate
  dirOnly_size := List.length_replicate
  level1_size := ⟨⟨[], begins_nil List.length_replicate, rfl⟩, fun slot hslot => by
    rw [List.eq_of_mem_replicate hslot, List.length_replicate]⟩
  level2_size := ⟨⟨[], begins_nil List.length_replicate, rfl⟩, fun slot hslot => by
    rw [List.eq_of_mem_replicate hslot, List.length_replicate]⟩

/-- The first path of tier 2 is `\\a\System\Library\CoreServices\boot.efi`. -/
theorem double_backslash_probed : ¬HasForm oneDirectory zeroBuffers :=
  not_hasForm zeroBuffers (by decide) (by decide)

end BankFinder.CandidatePaths
