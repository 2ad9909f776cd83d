import BankFinder.DevicePaths

/-!
# The search for `boot.efi`

`try_open_candidates` tries the known places of the macOS loader on a volume. When none of
them loads, it looks through the directories for a file of that name and tries the first
one it meets.
-/

namespace BankFinder.BootSearch
open TaggedNodes DevicePaths

/-- An entry of a directory as `Read` delivers it. -/
structure Record where
  name : List UInt16
  isDir : Bool
  deriving DecidableEq, Repr

/-- The calls on a volume and on its files. `openAt` takes a path below a handle, or from the
root when it begins with a backslash. `records` is what the successive reads of a handle
deliver, and `readFile` what a read of the given size does. -/
structure Volume (H I : Type) where
  root : H
  blessedInfo : Option (List UInt8)
  openAt : H → List UInt16 → Option H
  records : H → List Record
  fileSize : H → Option ℕ
  readFile : H → ℕ → Option (List UInt8)
  loadImage : List UInt8 → Option I

variable {H I : Type}

/-- The part of `try_path` behind `Open`. -/
def loadFile (vol : Volume H I) (f : H) : Option I :=
  match vol.fileSize f with
  | none => none
  | some size =>
      if size = 0 ∨ 32 * 1024 * 1024 < size then none
      else
        match vol.readFile f size with
        | none => none
        | some buf => if buf.length ≠ size then none else vol.loadImage buf

/-- `try_path`, with the handle of the loaded image. -/
def tryPath (vol : Volume H I) (path : List UInt16) : Option I :=
  match vol.openAt vol.root path with
  | none => none
  | some f => loadFile vol f

def macosBootSuffix : List UInt16 := charsOf "\\System\\Library\\CoreServices\\boot.efi"

def macosAltPaths : List (List UInt16) := [
  charsOf "\\System\\Library\\CoreServices\\boot.efi",
  charsOf "\\boot.efi",
  charsOf "\\boot\\boot.efi",
  charsOf "\\cryptex1\\current\\System\\Library\\CoreServices\\boot.efi",
  charsOf "\\Cryptexes\\OS\\System\\Library\\CoreServices\\boot.efi",
  charsOf "\\com.apple.recovery.boot\\boot.efi",
  charsOf "\\usr\\standalone\\i386\\boot.efi"]

def backslash : UInt16 := 0x5c
def maxLevelDirs : ℕ := 32
def maxDirnameChars : ℕ := 64
def dirOnlyCap : ℕ := 128
def maxDepth : ℕ := 4

/-- Entries without a name, `.` and `..` -/
def skipped (name : List UInt16) : Bool :=
  name.isEmpty || name == charsOf "." || name == charsOf ".."

/-- `list_child_dirs` -/
def listChildDirs : List Record → List (List UInt16) → List (List UInt16)
  | [], names => names
  | r :: records, names =>
      if skipped r.name then listChildDirs records names
      else
        let names := names ++ [copyUnits maxDirnameChars [] r.name]
        if maxLevelDirs ≤ names.length then names else listChildDirs records names

def pathJoin (cap : ℕ) (pre name suffix : List UInt16) : List UInt16 :=
  let out := copyUnits cap [] pre
  let out := copyUnits cap out [backslash]
  let out := copyUnits cap out name
  copyUnits cap out suffix

/-- `\<dir>` with each of the known paths. -/
def tier2 (name : List UInt16) : List (List UInt16) :=
  macosAltPaths.map fun alt => pathJoin fullPathCap [backslash] name alt

/-- `full_path[]` for a directory in a directory. -/
def nestedPath (name name2 : List UInt16) : List UInt16 :=
  let path := copyUnits fullPathCap [backslash] name
  let path := copyUnits fullPathCap (path ++ [backslash]) name2
  copyUnits fullPathCap path macosBootSuffix

/-- What is opened may also be a file; then its content is read as if it were a directory. -/
def tier3 (vol : Volume H I) (name : List UInt16) : List (List UInt16) :=
  match vol.openAt vol.root (pathJoin dirOnlyCap [backslash] name []) with
  | none => []
  | some sub => (listChildDirs (vol.records sub) []).map (nestedPath name)

/-- The paths which are tried before the last resort, in their order. -/
def candidates (vol : Volume H I) : List (List UInt16) :=
  (appleBlessGetPath vol.blessedInfo fullPathCap).toList ++ macosAltPaths ++
    (listChildDirs (vol.records vol.root) []).flatMap fun name => tier2 name ++ tier3 vol name

def lower (c : UInt16) : UInt16 := if 0x41 ≤ c ∧ c ≤ 0x5a then c - 0x41 + 0x61 else c

/-- The name is `boot.efi` in letters of either case. -/
def isBootEfi (name : List UInt16) : Bool := name.map lower == charsOf "boot.efi"

/-- The loop of `bfs_find_boot_efi` over the entries of `cur`. `buf` is what `abs_path_buf`
holds, `descend` the call for the next level, if there is one. -/
def scanDir (vol : Volume H I) (cap : ℕ) (cur : H)
    (descend : Option (H → List UInt16 → Bool × List UInt16)) :
    List Record → List UInt16 → Bool × List UInt16
  | [], buf => (false, buf)
  | r :: records, buf =>
      if skipped r.name then scanDir vol cap cur descend records buf
      else if r.isDir then
        match descend with
        | none => scanDir vol cap cur none records buf
        | some descend =>
            if cap ≤ buf.length + 1 then scanDir vol cap cur (some descend) records buf
            else
              let sub := copyUnits cap (buf ++ [backslash]) r.name
              match vol.openAt cur (sub.drop (buf.length + 1)) with
              | none => scanDir vol cap cur (some descend) records (sub.take buf.length)
              | some dir =>
                  let found := descend dir sub
                  if found.1 then found
                  else scanDir vol cap cur (some descend) records (found.2.take buf.length)
      else if isBootEfi r.name then
        (true, copyUnits cap (copyUnits cap buf [backslash]) r.name)
      else scanDir vol cap cur descend records buf

/-- `bfs_find_boot_efi`, with `max_depth - depth` levels left. -/
def bfsFindBootEfi (vol : Volume H I) (cap : ℕ) : ℕ → H → List UInt16 → Bool × List UInt16
  | 0, cur, buf => scanDir vol cap cur none (vol.records cur) buf
  | left + 1, cur, buf =>
      scanDir vol cap cur (some (bfsFindBootEfi vol cap left)) (vol.records cur) buf

/-- The first path which loads, with its image. -/
def tryPaths (vol : Volume H I) (paths : List (List UInt16)) : Option (List UInt16 × I) :=
  paths.findSome? fun path => (tryPath vol path).map fun image => (path, image)

def tryOpenCandidates (vol : Volume H I) : Option (List UInt16 × I) :=
  match tryPaths vol (candidates vol) with
  | some hit => some hit
  | none =>
      let fs := bfsFindBootEfi vol fullPathCap maxDepth vol.root []
      if fs.1 && !fs.2.isEmpty then tryPaths vol [fs.2] else none

/-- The files named `boot.efi` which an entry of `cur` leads to. -/
def metAt (vol : Volume H I) (cap : ℕ) (cur : H)
    (below : Option (H → List UInt16 → List (List UInt16))) (buf : List UInt16) (r : Record) :
    List (List UInt16) :=
  if skipped r.name then []
  else if r.isDir then
    match below with
    | none => []
    | some below =>
        if cap ≤ buf.length + 1 then []
        else
          let sub := copyUnits cap (buf ++ [backslash]) r.name
          match vol.openAt cur (sub.drop (buf.length + 1)) with
          | none => []
          | some dir => below dir sub
  else if isBootEfi r.name then [copyUnits cap (copyUnits cap buf [backslash]) r.name]
  else []

/-- The files named `boot.efi` below a handle, in the order of the entries, depth first. -/
def bootFiles (vol : Volume H I) (cap : ℕ) : ℕ → H → List UInt16 → List (List UInt16)
  | 0, cur, buf => (vol.records cur).flatMap (metAt vol cap cur none buf)
  | left + 1, cur, buf =>
      (vol.records cur).flatMap (metAt vol cap cur (some (bootFiles vol cap left)) buf)

/-- The answer of a walk which could meet these files. -/
def firstOf (buf : List UInt16) (paths : List (List UInt16)) : Bool × List UInt16 :=
  match paths with
  | [] => (false, buf)
  | path :: _ => (true, path)

theorem firstOf_append (buf : List UInt16) (paths more : List (List UInt16)) :
    firstOf buf (paths ++ more) =
      if (firstOf buf paths).1 then firstOf buf paths else firstOf buf more := by
  cases paths with
  | nil => rfl
  | cons path paths => rfl

theorem take_copyUnits {cap : ℕ} {buf : List UInt16} (h : ¬cap ≤ buf.length + 1)
    (name : List UInt16) : (copyUnits cap (buf ++ [backslash]) name).take buf.length = buf := by
  have hlen : (buf ++ [backslash]).length < cap := by
    rw [List.length_append, List.length_singleton]
    omega
  rw [copyUnits_eq name hlen, List.append_assoc, List.take_left]

/-- The call for the next level finds the first of the files which it can meet. -/
def Finds : Option (H → List UInt16 → Bool × List UInt16) →
    Option (H → List UInt16 → List (List UInt16)) → Prop
  | none, none => True
  | some descend, some below => ∀ dir path, descend dir path = firstOf path (below dir path)
  | _, _ => False

/-- The loop finds the first of the files which its entries lead to, and leaves the path
buffer as it was when there is none. -/
theorem scanDir_eq (vol : Volume H I) {cap : ℕ} (cur : H)
    {descend : Option (H → List UInt16 → Bool × List UInt16)}
    {below : Option (H → List UInt16 → List (List UInt16))} (h : Finds descend below)
    (records : List Record) (buf : List UInt16) :
    scanDir vol cap cur descend records buf =
      firstOf buf (records.flatMap (metAt vol cap cur below buf)) := by
  induction records with
  | nil => rfl
  | cons r records ih =>
      unfold scanDir
      rw [List.flatMap_cons, firstOf_append, ← ih]
      unfold metAt
      by_cases hskip : skipped r.name = true
      · rw [if_pos hskip, if_pos hskip]
        rfl
      rw [if_neg hskip, if_neg hskip]
      by_cases hdir : r.isDir = true
      · rw [if_pos hdir, if_pos hdir]
        rcases descend with _ | descend <;> rcases below with _ | below
        · rfl
        · exact h.elim
        · exact h.elim
        by_cases hfull : cap ≤ buf.length + 1
        · simp only [if_pos hfull]
          rfl
        have hback := take_copyUnits hfull r.name
        simp only [if_neg hfull, hback]
        cases vol.openAt cur
            ((copyUnits cap (buf ++ [backslash]) r.name).drop (buf.length + 1)) with
        | none => rfl
        | some dir =>
            simp only [h dir]
            cases below dir (copyUnits cap (buf ++ [backslash]) r.name) with
            | nil => simp [firstOf, hback]
            | cons path paths => rfl
      · rw [if_neg hdir, if_neg hdir]
        by_cases hboot : isBootEfi r.name = true
        · rw [if_pos hboot, if_pos hboot]
          rfl
        · rw [if_neg hboot, if_neg hboot]
          rfl

/-- The walk returns the first of the files which it can meet. -/
theorem bfsFindBootEfi_eq (vol : Volume H I) (cap left : ℕ) (cur : H) (buf : List UInt16) :
    bfsFindBootEfi vol cap left cur buf = firstOf buf (bootFiles vol cap left cur buf) := by
  induction left generalizing cur buf with
  | zero => exact scanDir_eq vol cur (show Finds none none from trivial) (vol.records cur) buf
  | succ left ih =>
      refine scanDir_eq vol cur ?_ (vol.records cur) buf
      intro dir path
      exact ih dir path

end BankFinder.BootSearch
