import BankFinder.Nvram

/-!
# The firmware as the installer calls it

Variable services, volumes with their files, and the calls on both. Any call may be
refused: the firmware is given by its answers to the successive calls, so a theorem
about every firmware is about every pattern of failures. What `UEFI` documents of a
call which is not refused is in the definition of the call.
-/

namespace BankFinder.EfiMachine
open Nvram

/-- The status of a call which failed. -/
abbrev Refusal := {status : EfiStatus // status ≠ efiSuccess}

def efiVolumeFull : EfiStatus := 0x8000000000000000 ||| 13
def efiAborted : EfiStatus := 0x8000000000000000 ||| 21

def notFound : Refusal := ⟨efiNotFound, by decide⟩
def accessDenied : Refusal := ⟨efiAccessDenied, by decide⟩
def bufferTooSmall : Refusal := ⟨efiBufferTooSmall, by decide⟩
def outOfResources : Refusal := ⟨efiOutOfResources, by decide⟩
def volumeFull : Refusal := ⟨efiVolumeFull, by decide⟩
def aborted : Refusal := ⟨efiAborted, by decide⟩

/-- A path below the root of a volume, by its components. -/
abbrev EfiPath := List String

inductive Node where
  | directory
  | file (content : List UInt8)
  deriving DecidableEq, Repr

abbrev FileTree := AList fun _ : EfiPath => Node

/-- The directory which holds `path` is there; the root always is. -/
def FileTree.holdsParent (tree : FileTree) (path : EfiPath) : Bool :=
  path.dropLast.isEmpty || tree.lookup path.dropLast == some .directory

/-- Something lies in the directory. -/
def FileTree.occupied (tree : FileTree) (path : EfiPath) : Bool :=
  tree.keys.any fun p => p.dropLast == path && p != path

def FileTree.ofList (nodes : List (EfiPath × Node)) : FileTree :=
  nodes.foldl (fun tree n => tree.insert n.1 n.2) ∅

/-- The content of a file; a directory is none. -/
def FileTree.content? (tree : FileTree) (path : EfiPath) : Option (List UInt8) :=
  match tree.lookup path with
  | some (.file content) => some content
  | _ => none

abbrev Handle := ℕ

/-- What the protocols of a handle with a file system answer. `removableMedia` is `none`
when there is no block device or no medium. -/
structure Volume where
  handle : Handle
  removableMedia : Option Bool
  simpleFileSystem : EfiStatus
  openVolume : EfiStatus
  devicePath : Option (List UInt8)
  deriving DecidableEq, Repr

/-- The calls which can fail besides `SetVariable`. -/
inductive Call where
  | locateHandle
  | allocatePool
  | openRead
  | openWrite
  | create
  | getInfo
  | read
  | write
  | delete
  | loadImage
  | startImage
  deriving DecidableEq, Repr

structure SetCall where
  guid : Guid
  name : String
  data : List UInt8
  status : EfiStatus
  deriving DecidableEq, Repr

/-- `loadedImage` is the device the calling image was loaded from. `refuseSet` and `fault`
answer the successive calls by number, and `moved` says how many bytes a transfer moves of
those asked for. `enumerate` is the order in which `GetNextVariableName` lists the names. -/
structure Efi where
  loadedImage : Except Refusal Handle
  volumes : List Volume
  refuseSet : ℕ → Guid → String → List UInt8 → Option Refusal
  fault : ℕ → Call → Option Refusal
  moved : ℕ → ℕ → ℕ
  enumerate : Store → List (Guid × String)
  nodup_enumerate : ∀ store, (enumerate store).Nodup
  mem_enumerate : ∀ store k, k ∈ enumerate store ↔ store.get? k.1 k.2 ≠ none

/-- The names in a store, each once. -/
def storeNames (store : Store) : List (Guid × String) :=
  (store.map fun v => (v.guid, v.name)).dedup

theorem mem_storeNames (store : Store) (k : Guid × String) :
    k ∈ storeNames store ↔ store.get? k.1 k.2 ≠ none := by
  have hnamed (v : Variable) : v.named k.1 k.2 = true ↔ (v.guid, v.name) = k := by
    rw [Variable.named, Bool.and_eq_true, beq_iff_eq, beq_iff_eq, Prod.ext_iff]
  rw [storeNames, List.mem_dedup, List.mem_map, Store.get?, Ne, Option.map_eq_none_iff,
    List.find?_eq_none]
  simp only [not_forall, not_not, hnamed, exists_prop]

/-- Firmware which refuses nothing, moves all bytes asked for, and lists the names in the
order of the store. -/
def plainEfi (device : Handle) (volumes : List Volume) : Efi where
  loadedImage := .ok device
  volumes := volumes
  refuseSet _ _ _ _ := none
  fault _ _ := none
  moved _ asked := asked
  enumerate := storeNames
  nodup_enumerate _ := List.nodup_dedup _
  mem_enumerate := mem_storeNames

/-- `sets` are the `SetVariable` calls so far, `calls` counts the others. -/
structure Machine where
  store : Store
  files : Handle → FileTree
  sets : List SetCall
  calls : ℕ

/-- What a call does: an answer, or the status of a failure, and the machine after it. -/
def EfiM (ε α : Type) := Machine → Except ε α × Machine

instance {ε : Type} : Monad (EfiM ε) where
  pure a m := (.ok a, m)
  bind x f m := match x m with
    | (.ok a, m') => f a m'
    | (.error e, m') => (.error e, m')

section
variable {ε α β : Type}

def fail (e : ε) : EfiM ε α := fun m => (.error e, m)

/-- The answer of a call whose result is not looked at. -/
def ignore {δ : Type} (x : EfiM δ α) : EfiM ε Unit := fun m => (.ok (), (x m).2)

theorem fail_run (e : ε) (m : Machine) : (fail e : EfiM ε α) m = (.error e, m) := rfl

theorem ignore_run {δ : Type} (x : EfiM δ α) (m : Machine) :
    (ignore x : EfiM ε Unit) m = (.ok (), (x m).2) := rfl

theorem ite_run (c : Prop) [Decidable c] (x y : EfiM ε α) (m : Machine) :
    (if c then x else y) m = if c then x m else y m := ite_apply ..

theorem bind_run (x : EfiM ε α) (f : α → EfiM ε β) (m : Machine) :
    (x >>= f) m = match (x m).1 with
      | .ok a => f a (x m).2
      | .error e => (.error e, (x m).2) := by
  change (match x m with | (.ok a, m') => f a m' | (.error e, m') => (.error e, m')) = _
  rcases x m with ⟨r | r, m'⟩
  · rfl
  · rfl

theorem bind_of_ok {x : EfiM ε α} {m m' : Machine} {a : α} (f : α → EfiM ε β)
    (h : x m = (.ok a, m')) : (x >>= f) m = f a m' := by
  rw [bind_run, h]

theorem bind_of_error {x : EfiM ε α} {m m' : Machine} {e : ε} (f : α → EfiM ε β)
    (h : x m = (.error e, m')) : (x >>= f) m = (.error e, m') := by
  rw [bind_run, h]

instance : LawfulMonad (EfiM ε) := by
  refine LawfulMonad.mk' (EfiM ε) ?_ ?_ ?_
  · intro _ x
    funext m
    change (x >>= pure) m = x m
    rw [bind_run]
    cases hx : (x m).1 with
    | ok a => exact Prod.ext hx.symm rfl
    | error e => exact Prod.ext hx.symm rfl
  · intro _ _ a f
    rfl
  · intro _ _ _ x f g
    funext m
    rw [bind_run, bind_run, bind_run]
    cases (x m).1 with
    | ok a => exact (bind_run (f a) g _).symm
    | error e => rfl

/-- What a sequence which succeeded consists of. -/
theorem ok_of_bind {x : EfiM ε α} {f : α → EfiM ε β} {m m' : Machine} {b : β}
    (h : (x >>= f) m = (.ok b, m')) : ∃ a m₁, x m = (.ok a, m₁) ∧ f a m₁ = (.ok b, m') := by
  rw [bind_run] at h
  rcases hx : x m with ⟨e | a, m₁⟩
  · rw [hx] at h
    cases h
  · rw [hx] at h
    exact ⟨a, m₁, rfl, h⟩

theorem error_of_bind {x : EfiM ε α} {f : α → EfiM ε β} {m m' : Machine} {e : ε}
    (h : (x >>= f) m = (.error e, m')) : x m = (.error e, m') ∨
      ∃ a m₁, x m = (.ok a, m₁) ∧ f a m₁ = (.error e, m') := by
  rw [bind_run] at h
  rcases hx : x m with ⟨e' | a, m₁⟩
  · rw [hx] at h
    cases h
    exact Or.inl rfl
  · rw [hx] at h
    exact Or.inr ⟨a, m₁, rfl, h⟩

/-- Whatever the answer, the machine afterwards is related to the one before. -/
def Keeps (R : Machine → Machine → Prop) (x : EfiM ε α) : Prop := ∀ m, R m (x m).2

variable {R : Machine → Machine → Prop}

theorem Keeps.pure [Std.Refl R] (a : α) : Keeps R (Pure.pure a : EfiM ε α) := refl_of R

theorem Keeps.fail [Std.Refl R] (e : ε) : Keeps R (fail e : EfiM ε α) := refl_of R

theorem Keeps.ignore {δ : Type} {x : EfiM δ α} (h : Keeps R x) :
    Keeps R (EfiMachine.ignore x : EfiM ε Unit) := h

theorem Keeps.bind [IsTrans Machine R] {x : EfiM ε α} {f : α → EfiM ε β} (hx : Keeps R x)
    (hf : ∀ a, Keeps R (f a)) : Keeps R (x >>= f) := by
  intro m
  rw [bind_run]
  have hm := hx m
  cases (x m).1 with
  | error e => exact hm
  | ok a => exact trans_of R hm (hf a (x m).2)

end

/-- `SetVariable` on a store: without data the variable is deleted. -/
def answerSet (refused : Option Refusal) (store : Store) (guid : Guid) (name : String)
    (data : List UInt8) : EfiStatus × Store :=
  match refused with
  | some e => (e.1, store)
  | none =>
      if data = [] ∧ store.get? guid name = none then (efiNotFound, store)
      else (efiSuccess, store.set guid name data)

def setVariable (fw : Efi) (guid : Guid) (name : String) (data : List UInt8) :
    EfiM Refusal Unit := fun m =>
  let r := answerSet (fw.refuseSet m.sets.length guid name data) m.store guid name data
  let m' := { m with store := r.2, sets := m.sets ++ [⟨guid, name, data, r.1⟩] }
  if h : r.1 ≠ efiSuccess then (.error ⟨r.1, h⟩, m') else (.ok (), m')

/-- What a variable holds after data was stored. -/
def stored (data : List UInt8) : Option (List UInt8) := if data = [] then none else some data

/-- The answer to a call which can fail but has no other effect. -/
def perform (fw : Efi) (c : Call) : EfiM Refusal Unit := fun m =>
  let m' := { m with calls := m.calls + 1 }
  match fw.fault m.calls c with
  | some e => (.error e, m')
  | none => (.ok (), m')

def readTree (root : Handle) : EfiM Refusal FileTree := fun m => (.ok (m.files root), m)

def writeTree (root : Handle) (tree : FileTree) : EfiM Refusal Unit := fun m =>
  (.ok (), { m with files := Function.update m.files root tree })

/-- `Open` for reading. -/
def openRead (fw : Efi) (root : Handle) (path : EfiPath) : EfiM Refusal Node := do
  perform fw .openRead
  match (← readTree root).lookup path with
  | none => fail notFound
  | some node => pure node

/-- `Open` for reading and writing. -/
def openWrite (fw : Efi) (root : Handle) (path : EfiPath) : EfiM Refusal Node := do
  perform fw .openWrite
  match (← readTree root).lookup path with
  | none => fail notFound
  | some node => pure node

/-- `Open` with `EFI_FILE_MODE_CREATE`: what is there already is opened as it is. -/
def openCreate (fw : Efi) (root : Handle) (path : EfiPath) (kind : Node) :
    EfiM Refusal Node := do
  perform fw .create
  let tree ← readTree root
  match tree.lookup path with
  | some node => pure node
  | none =>
      if tree.holdsParent path then
        writeTree root (tree.insert path kind)
        pure kind
      else fail notFound

/-- How many bytes the next transfer moves. -/
def transfer (fw : Efi) (asked : ℕ) : EfiM Refusal ℕ := fun m =>
  (.ok (min asked (fw.moved m.calls asked)), m)

/-- `Read` from the start of a file. -/
def readFile (fw : Efi) (content : List UInt8) : EfiM Refusal (List UInt8) := do
  let count ← transfer fw content.length
  perform fw .read
  pure (content.take count)

/-- `Write` at the start of a file: it neither truncates nor stops at the old end, and a
write which fails may have stored part of the data. -/
def writeFile (fw : Efi) (root : Handle) (path : EfiPath) (data : List UInt8) :
    EfiM Refusal Unit := do
  let count ← transfer fw data.length
  let tree ← readTree root
  match tree.lookup path with
  | some (.file old) =>
      writeTree root (tree.insert path (.file (data.take count ++ old.drop count)))
      perform fw .write
  | _ => fail accessDenied

/-- `Delete`; a directory has to be empty. -/
def deleteNode (fw : Efi) (root : Handle) (path : EfiPath) : EfiM Refusal Unit := do
  perform fw .delete
  let tree ← readTree root
  if tree.lookup path = some .directory ∧ tree.occupied path then fail accessDenied
  else writeTree root (tree.erase path)

end BankFinder.EfiMachine
