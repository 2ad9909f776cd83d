import BankFinder.EfiMachine

/-!
# What a call leaves alone

A frame is a set of variables and a set of files outside of which nothing changes.
Every call has a smallest frame, whatever the firmware answers, and a program has the
frame of its calls.
-/

namespace BankFinder.MachineFrame
open Nvram EfiMachine

/-- Outside the variables `K` and the files `F` both machines hold the same. -/
structure Frame (K : Set (Guid × String)) (F : Set (Handle × EfiPath)) (m m' : Machine) :
    Prop where
  vars : ∀ k ∉ K, m'.store.get? k.1 k.2 = m.store.get? k.1 k.2
  files : ∀ f ∉ F, (m'.files f.1).lookup f.2 = (m.files f.1).lookup f.2

/-- No variable was written, nor was it tried. -/
def SameVars (m m' : Machine) : Prop := m'.store = m.store ∧ m'.sets = m.sets

section
variable {ε α : Type} {K : Set (Guid × String)} {F : Set (Handle × EfiPath)}

instance : Std.Refl (Frame K F) := ⟨fun _ => ⟨fun _ _ => rfl, fun _ _ => rfl⟩⟩

instance : IsTrans Machine (Frame K F) :=
  ⟨fun _ _ _ h h' => ⟨fun k hk => (h'.vars k hk).trans (h.vars k hk),
    fun f hf => (h'.files f hf).trans (h.files f hf)⟩⟩

instance : Std.Refl SameVars := ⟨fun _ => ⟨rfl, rfl⟩⟩

instance : IsTrans Machine SameVars :=
  ⟨fun _ _ _ h h' => ⟨h'.1.trans h.1, h'.2.trans h.2⟩⟩

theorem Frame.mono {K' : Set (Guid × String)} {F' : Set (Handle × EfiPath)} {m m' : Machine}
    (h : Frame K F m m') (hK : K ⊆ K') (hF : F ⊆ F') : Frame K' F' m m' :=
  ⟨fun k hk => h.vars k fun hk' => hk (hK hk'), fun f hf => h.files f fun hf' => hf (hF hf')⟩

theorem Frame.content? {m m' : Machine} (h : Frame K F m m') {root : Handle} {path : EfiPath}
    (hf : (root, path) ∉ F) : (m'.files root).content? path = (m.files root).content? path := by
  unfold FileTree.content?
  rw [h.files (root, path) hf]

theorem SameVars.frame {m m' : Machine} (h : SameVars m m') : Frame K Set.univ m m' :=
  ⟨fun k _ => by rw [h.1], fun _ hf => absurd (Set.mem_univ _) hf⟩

/-- Outside the files `F` both machines hold the same, and no variable was tried. -/
structure OnlyFiles (F : Set (Handle × EfiPath)) (m m' : Machine) : Prop where
  sameVars : SameVars m m'
  files : ∀ f ∉ F, (m'.files f.1).lookup f.2 = (m.files f.1).lookup f.2

instance : Std.Refl (OnlyFiles F) := ⟨fun m => ⟨refl_of SameVars m, fun _ _ => rfl⟩⟩

instance : IsTrans Machine (OnlyFiles F) :=
  ⟨fun _ _ _ h h' => ⟨trans_of _ h.sameVars h'.sameVars,
    fun f hf => (h'.files f hf).trans (h.files f hf)⟩⟩

theorem OnlyFiles.frame {m m' : Machine} (h : OnlyFiles F m m') : Frame K F m m' :=
  ⟨fun k _ => by rw [h.sameVars.1], h.files⟩

def Total (x : EfiM ε Unit) : Prop := ∀ m, (x m).1 = .ok ()

theorem Total.bind_run {β : Type} {x : EfiM ε Unit} (hx : Total x) (y : EfiM ε β) (m : Machine) :
    (x >>= fun _ => y) m = y (x m).2 := by
  rw [EfiMachine.bind_run, hx m]

theorem total_pure : Total (pure () : EfiM ε Unit) := fun _ => rfl

theorem total_ignore {δ : Type} (x : EfiM δ α) : Total (ignore x : EfiM ε Unit) := fun _ => rfl

theorem Total.bind {x : EfiM ε α} {f : α → EfiM ε Unit} (hx : ∀ m, ∃ a, (x m).1 = .ok a)
    (hf : ∀ a, Total (f a)) : Total (x >>= f) := by
  intro m
  obtain ⟨a, ha⟩ := hx m
  rw [EfiMachine.bind_run, ha]
  exact hf a _

/-- The call changes nothing but the number of calls. -/
def Reads (x : EfiM ε α) : Prop := ∀ m, ∃ n, (x m).2 = { m with calls := n }

theorem Reads.keeps {R : Machine → Machine → Prop} {x : EfiM ε α} (h : Reads x)
    (hR : ∀ m n, R m { m with calls := n }) : Keeps R x := by
  intro m
  obtain ⟨n, hn⟩ := h m
  rw [hn]
  exact hR m n

theorem Reads.frame {x : EfiM ε α} (h : Reads x) : Keeps (Frame K F) x :=
  h.keeps fun _ _ => ⟨fun _ _ => rfl, fun _ _ => rfl⟩

theorem Reads.sameVars {x : EfiM ε α} (h : Reads x) : Keeps SameVars x :=
  h.keeps fun _ _ => ⟨rfl, rfl⟩

theorem Reads.files {x : EfiM ε α} (h : Reads x) (m : Machine) : (x m).2.files = m.files := by
  obtain ⟨n, hn⟩ := h m
  rw [hn]

theorem Reads.store {x : EfiM ε α} (h : Reads x) (m : Machine) : (x m).2.store = m.store :=
  (h.sameVars m).1

theorem reads_pure (a : α) : Reads (pure a : EfiM ε α) := fun m => ⟨m.calls, rfl⟩

theorem reads_fail (e : ε) : Reads (fail e : EfiM ε α) := fun m => ⟨m.calls, rfl⟩

theorem Reads.bind {β : Type} {x : EfiM ε α} {f : α → EfiM ε β} (hx : Reads x)
    (hf : ∀ a, Reads (f a)) : Reads (x >>= f) := by
  intro m
  rw [bind_run]
  obtain ⟨n, hn⟩ := hx m
  cases (x m).1 with
  | error e => exact ⟨n, hn⟩
  | ok a =>
      obtain ⟨n', hn'⟩ := hf a (x m).2
      exact ⟨n', by rw [hn', hn]⟩

theorem reads_perform (fw : Efi) (c : Call) : Reads (perform fw c) := by
  intro m
  unfold perform
  simp only
  cases fw.fault m.calls c with
  | some e => exact ⟨_, rfl⟩
  | none => exact ⟨_, rfl⟩

theorem reads_readTree (root : Handle) : Reads (readTree root) := fun m => ⟨m.calls, rfl⟩

theorem reads_found (path : EfiPath) (tree : FileTree) :
    Reads (match tree.lookup path with
      | none => fail notFound
      | some node => pure node : EfiM Refusal Node) := by
  cases tree.lookup path with
  | none => exact reads_fail notFound
  | some node => exact reads_pure node

theorem reads_openRead (fw : Efi) (root : Handle) (path : EfiPath) :
    Reads (openRead fw root path) :=
  (reads_perform fw .openRead).bind fun _ => (reads_readTree root).bind fun tree =>
    reads_found path tree

theorem reads_openWrite (fw : Efi) (root : Handle) (path : EfiPath) :
    Reads (openWrite fw root path) :=
  (reads_perform fw .openWrite).bind fun _ => (reads_readTree root).bind fun tree =>
    reads_found path tree

theorem reads_transfer (fw : Efi) (asked : ℕ) : Reads (transfer fw asked) :=
  fun m => ⟨m.calls, rfl⟩

theorem reads_readFile (fw : Efi) (content : List UInt8) : Reads (readFile fw content) :=
  (reads_transfer fw content.length).bind fun count => (reads_perform fw .read).bind fun _ =>
    reads_pure (content.take count)

theorem readTree_bind {β : Type} (root : Handle) (f : FileTree → EfiM Refusal β) (m : Machine) :
    (readTree root >>= f) m = f (m.files root) m := rfl

theorem writeTree_files (root : Handle) (tree : FileTree) (m : Machine) :
    (writeTree root tree m).2.files root = tree := Function.update_self ..

/-- The call changes nothing but files in `F`, and the number of calls. -/
def Writes (F : Set (Handle × EfiPath)) (x : EfiM ε α) : Prop := Keeps (OnlyFiles F) x

theorem Writes.frame {x : EfiM ε α} (h : Writes F x) : Keeps (Frame K F) x := fun m => (h m).frame

theorem Writes.sameVars {x : EfiM ε α} (h : Writes F x) : Keeps SameVars x :=
  fun m => (h m).sameVars

theorem Reads.writes {x : EfiM ε α} (h : Reads x) : Writes F x :=
  h.keeps fun _ _ => ⟨⟨rfl, rfl⟩, fun _ _ => rfl⟩

/-- Storing a tree which differs at one path only. -/
theorem onlyFiles_writeTree {root : Handle} {path : EfiPath} {tree : FileTree} {m : Machine}
    (hF : (root, path) ∈ F) (h : ∀ p ≠ path, tree.lookup p = (m.files root).lookup p) :
    OnlyFiles F m (writeTree root tree m).2 := by
  refine ⟨⟨rfl, rfl⟩, ?_⟩
  intro f hf
  change (Function.update m.files root tree f.1).lookup f.2 = _
  rcases eq_or_ne f.1 root with hroot | hroot
  · rw [hroot, Function.update_self]
    exact h f.2 fun hpath => hf (by rw [← hroot, ← hpath] at hF; exact hF)
  · rw [Function.update_of_ne hroot]

theorem writes_openCreate (fw : Efi) {root : Handle} {path : EfiPath} (kind : Node)
    (hF : (root, path) ∈ F) : Writes F (openCreate fw root path kind) := by
  refine (reads_perform fw .create).writes.bind fun _ m => ?_
  rw [readTree_bind]
  cases (m.files root).lookup path with
  | some node => exact refl_of _ m
  | none =>
      simp only
      split_ifs
      · exact onlyFiles_writeTree hF fun p hp => AList.lookup_insert_ne hp
      · exact refl_of _ m

theorem writes_writeFile (fw : Efi) {root : Handle} {path : EfiPath} (data : List UInt8)
    (hF : (root, path) ∈ F) : Writes F (writeFile fw root path data) := by
  refine (reads_transfer fw data.length).writes.bind fun count m => ?_
  rw [readTree_bind]
  cases (m.files root).lookup path with
  | none => exact refl_of _ m
  | some node =>
      cases node with
      | directory => exact refl_of _ m
      | file old =>
          have hwrite : OnlyFiles F m (writeTree root ((m.files root).insert path
              (.file (data.take count ++ old.drop count))) m).2 :=
            onlyFiles_writeTree hF fun p hp => AList.lookup_insert_ne hp
          exact trans_of _ hwrite ((reads_perform fw .write).writes _)

theorem writes_deleteNode (fw : Efi) {root : Handle} {path : EfiPath} (hF : (root, path) ∈ F) :
    Writes F (deleteNode fw root path) := by
  refine (reads_perform fw .delete).writes.bind fun _ m => ?_
  rw [readTree_bind]
  split_ifs
  · exact refl_of _ m
  · exact onlyFiles_writeTree hF fun p hp => AList.lookup_erase_ne hp

/-- A call of `SetVariable` is carried out and recorded, or it only leaves its record. -/
theorem setVariable_cases (fw : Efi) (guid : Guid) (name : String) (data : List UInt8)
    (m : Machine) :
    (setVariable fw guid name data m = (.ok (), { m with
        store := m.store.set guid name data
        sets := m.sets ++ [⟨guid, name, data, efiSuccess⟩] }) ∧
      fw.refuseSet m.sets.length guid name data = none ∧
      (data = [] → m.store.get? guid name ≠ none)) ∨
    ∃ e : Refusal, setVariable fw guid name data m =
        (.error e, { m with sets := m.sets ++ [⟨guid, name, data, e.1⟩] }) ∧
      (fw.refuseSet m.sets.length guid name data = some e ∨
        fw.refuseSet m.sets.length guid name data = none ∧ data = [] ∧
          m.store.get? guid name = none ∧ e = notFound) := by
  unfold setVariable
  cases hrefuse : fw.refuseSet m.sets.length guid name data with
  | some e =>
      exact Or.inr ⟨e, dif_pos e.2, Or.inl rfl⟩
  | none =>
      simp only [answerSet]
      split_ifs with habsent hstatus hstatus
      · exact Or.inr ⟨notFound, rfl, Or.inr ⟨trivial, habsent.1, habsent.2, rfl⟩⟩
      · exact absurd notFound.2 hstatus
      · exact absurd rfl hstatus
      · exact Or.inl ⟨rfl, trivial, fun hdata habs => habsent ⟨hdata, habs⟩⟩

theorem setVariable_sets (fw : Efi) (guid : Guid) (name : String) (data : List UInt8)
    (m : Machine) : ∃ status,
      (setVariable fw guid name data m).2.sets = m.sets ++ [⟨guid, name, data, status⟩] := by
  rcases setVariable_cases fw guid name data m with ⟨h, -⟩ | ⟨e, h, -⟩
  · exact ⟨efiSuccess, by rw [h]⟩
  · exact ⟨e.1, by rw [h]⟩

theorem setVariable_files (fw : Efi) (guid : Guid) (name : String) (data : List UInt8)
    (m : Machine) : (setVariable fw guid name data m).2.files = m.files := by
  rcases setVariable_cases fw guid name data m with ⟨h, -⟩ | ⟨e, h, -⟩
  · rw [h]
  · rw [h]

theorem frame_setVariable (fw : Efi) {guid : Guid} {name : String} (data : List UInt8)
    (hK : (guid, name) ∈ K) : Keeps (Frame K F) (setVariable fw guid name data) := by
  intro m
  constructor
  · intro k hk
    have hne : k ≠ (guid, name) := fun h => hk (h ▸ hK)
    rcases setVariable_cases fw guid name data m with ⟨h, -⟩ | ⟨e, h, -⟩
    · rw [h]
      exact Store.get?_set_other m.store data hne
    · rw [h]
  · intro f _
    rw [setVariable_files]

/-- The firmware never deletes the variable. -/
def DeleteRefused (fw : Efi) (k : Guid × String) : Prop :=
  ∀ i, fw.refuseSet i k.1 k.2 [] ≠ none

theorem frame_delete (fw : Efi) {guid : Guid} {name : String}
    (hK : (guid, name) ∈ K ∨ DeleteRefused fw (guid, name)) :
    Keeps (Frame K F) (setVariable fw guid name []) := by
  rcases hK with hK | hrefused
  · exact frame_setVariable fw [] hK
  · intro m
    rcases setVariable_cases fw guid name [] m with ⟨-, haccept, -⟩ | ⟨e, h, -⟩
    · exact absurd haccept (hrefused _)
    · rw [h]
      exact ⟨fun _ _ => rfl, fun _ _ => rfl⟩

/-- A call which is not refused leaves the variable with the data given, or without any. -/
theorem setVariable_stored {fw : Efi} {guid : Guid} {name : String} {data : List UInt8}
    {m : Machine} (h : fw.refuseSet m.sets.length guid name data = none) :
    (setVariable fw guid name data m).2.store.get? guid name = stored data := by
  rcases setVariable_cases fw guid name data m with ⟨hrun, -⟩ | ⟨e, hrun, hwhy⟩
  · rw [hrun]
    unfold stored
    split_ifs with hdata
    · rw [hdata, Store.get?_set_empty]
    · exact Store.get?_set m.store guid name hdata
  · rcases hwhy with hwhy | ⟨-, hdata, habsent, -⟩
    · rw [h] at hwhy
      exact absurd hwhy (by simp)
    · rw [hrun, hdata]
      exact habsent

theorem setVariable_ok {fw : Efi} {guid : Guid} {name : String} {data : List UInt8}
    {m m' : Machine} (h : setVariable fw guid name data m = (.ok (), m')) :
    m'.store.get? guid name = stored data := by
  rcases setVariable_cases fw guid name data m with ⟨-, haccept, -⟩ | ⟨e, hrun, -⟩
  · have hstored := setVariable_stored haccept
    rwa [h] at hstored
  · rw [hrun] at h
    cases h

theorem frame_setVariable_error {fw : Efi} {guid : Guid} {name : String} {data : List UInt8}
    {m m' : Machine} {e : Refusal} (h : setVariable fw guid name data m = (.error e, m')) :
    Frame K F m m' := by
  rcases setVariable_cases fw guid name data m with ⟨hrun, -⟩ | ⟨e, hrun, -⟩
  · rw [hrun] at h
    cases h
  · rw [hrun] at h
    cases h
    exact ⟨fun _ _ => rfl, fun _ _ => rfl⟩

end

end BankFinder.MachineFrame
