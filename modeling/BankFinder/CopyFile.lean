import BankFinder.InstallUndo

/-!
# Copying a file over another one

`copy_file_ops` opens the destination with its old content and writes over its start.
Nothing is truncated, and the counts which `Read` and `Write` report are not looked at.
So the old content shows behind the bytes which were moved.
-/

namespace BankFinder.CopyFile
open Nvram EfiMachine MachineFrame MaskOps MaskFrames Install InstallUndo

theorem writeTree_lookup {root : Handle} {path : EfiPath} {node : Node} {tree : FileTree}
    {m m' : Machine} (h : (writeTree root (tree.insert path node)) m = (.ok (), m')) :
    m'.calls = m.calls ∧ (m'.files root).lookup path = some node := by
  cases h
  refine ⟨rfl, ?_⟩
  simp only [Function.update_self, AList.lookup_insert]

theorem perform_ok {fw : Efi} {c : Call} {m m' : Machine} (h : perform fw c m = (.ok (), m')) :
    m' = { m with calls := m.calls + 1 } := by
  unfold perform at h
  cases hfault : fw.fault m.calls c with
  | some e =>
      simp only [hfault] at h
      cases h
  | none =>
      simp only [hfault] at h
      cases h
      rfl

theorem openRead_ok {fw : Efi} {root : Handle} {path : EfiPath} {node : Node} {m m' : Machine}
    (h : openRead fw root path m = (.ok node, m')) :
    m' = { m with calls := m.calls + 1 } ∧ (m.files root).lookup path = some node := by
  obtain ⟨_, m₁, hcall, hrest⟩ := ok_of_bind h
  obtain rfl := perform_ok hcall
  rw [readTree_bind] at hrest
  cases hnode : (m.files root).lookup path with
  | none =>
      simp only [hnode] at hrest
      cases hrest
  | some node' =>
      simp only [hnode] at hrest
      cases hrest
      exact ⟨rfl, rfl⟩

theorem readFile_ok {fw : Efi} {content data : List UInt8} {m m' : Machine}
    (h : readFile fw content m = (.ok data, m')) :
    m' = { m with calls := m.calls + 1 } ∧
      data = content.take (fw.moved m.calls content.length) := by
  obtain ⟨count, m₁, hcount, hrest⟩ := ok_of_bind h
  cases hcount
  obtain ⟨_, m₂, hcall, hpure⟩ := ok_of_bind hrest
  obtain rfl := perform_ok hcall
  cases hpure
  refine ⟨rfl, ?_⟩
  rw [min_comm, ← List.take_eq_take_min]

/-- What `Open` with `EFI_FILE_MODE_CREATE` opens as a file: a new one is empty. -/
def opened (tree : FileTree) (path : EfiPath) : Node := (tree.lookup path).getD (.file [])

theorem openCreate_ok {fw : Efi} {root : Handle} {path : EfiPath} {node : Node} {m m' : Machine}
    (h : openCreate fw root path (.file []) m = (.ok node, m')) :
    m'.calls = m.calls + 1 ∧ (m'.files root).lookup path = some (opened (m.files root) path) := by
  obtain ⟨_, m₁, hcall, hrest⟩ := ok_of_bind h
  obtain rfl := perform_ok hcall
  rw [readTree_bind] at hrest
  unfold opened
  cases hnode : (m.files root).lookup path with
  | some old =>
      simp only [hnode] at hrest
      cases hrest
      exact ⟨rfl, hnode⟩
  | none =>
      simp only [hnode] at hrest
      split_ifs at hrest
      · obtain ⟨_, m₂, hwrite, hpure⟩ := ok_of_bind hrest
        cases hpure
        exact writeTree_lookup hwrite
      · cases hrest

theorem writeFile_ok {fw : Efi} {root : Handle} {path : EfiPath} {data : List UInt8}
    {m m' : Machine} (h : writeFile fw root path data m = (.ok (), m')) :
    ∃ old, (m.files root).lookup path = some (.file old) ∧
      (m'.files root).lookup path = some (.file
        (data.take (min data.length (fw.moved m.calls data.length)) ++
          old.drop (min data.length (fw.moved m.calls data.length)))) := by
  obtain ⟨count, m₁, hcount, hrest⟩ := ok_of_bind h
  cases hcount
  rw [readTree_bind] at hrest
  cases hnode : (m.files root).lookup path with
  | none =>
      simp only [hnode] at hrest
      cases hrest
  | some node =>
      cases node with
      | directory =>
          simp only [hnode] at hrest
          cases hrest
      | file old =>
          simp only [hnode] at hrest
          obtain ⟨_, m₂, hwrite, hcall⟩ := ok_of_bind hrest
          obtain rfl := perform_ok hcall
          exact ⟨old, rfl, (writeTree_lookup hwrite).2⟩

/-- How many bytes of the source arrive: `Read` moves a part, and `Write` a part of that.
They are the fourth and the sixth call. -/
def bytesMoved (fw : Efi) (calls : ℕ) (content : List UInt8) : ℕ :=
  let data := content.take (fw.moved (calls + 3) content.length)
  min data.length (fw.moved (calls + 5) data.length)

theorem bytesMoved_le_length (fw : Efi) (calls : ℕ) (content : List UInt8) :
    bytesMoved fw calls content ≤ content.length :=
  (min_le_left _ _).trans (List.length_take_le' _ _)

theorem bytesMoved_le_read (fw : Efi) (calls : ℕ) (content : List UInt8) :
    bytesMoved fw calls content ≤ fw.moved (calls + 3) content.length :=
  (min_le_left _ _).trans (List.length_take_le _ _)

/-- The moved bytes stand in front of what the old content has behind them. -/
theorem copyFileOps_ok {fw : Efi} {srcRoot dstRoot : Handle} {srcName dstName : EfiPath}
    {content : List UInt8} {m m' : Machine}
    (hsrc : (m.files srcRoot).lookup srcName = some (.file content))
    (h : copyFileOps fw srcRoot srcName dstRoot dstName m = (.ok (), m')) :
    (m'.files dstRoot).lookup dstName = match opened (m.files dstRoot) dstName with
      | .directory => some .directory
      | .file old => some (.file (content.take (bytesMoved fw m.calls content) ++
          old.drop (bytesMoved fw m.calls content))) := by
  obtain ⟨node, m₁, hopen, hbody⟩ := ok_of_bind h
  obtain ⟨rfl, hnode⟩ := openRead_ok hopen
  rw [hsrc] at hnode
  cases hnode
  obtain ⟨_, m₂, hinfo, hcopy⟩ := ok_of_bind hbody
  obtain rfl := perform_ok hinfo
  simp only at hcopy
  split_ifs at hcopy with hlarge hempty
  · cases hcopy
  · obtain rfl := List.length_eq_zero_iff.mp hempty
    obtain ⟨dst, m₃, hcreate, hpure⟩ := ok_of_bind hcopy
    cases hpure
    have hmoved : bytesMoved fw m.calls [] = 0 := Nat.le_zero.mp (bytesMoved_le_length _ _ _)
    rw [(openCreate_ok hcreate).2, hmoved]
    simp only [List.take_nil, List.drop_zero, List.nil_append]
    cases opened (m.files dstRoot) dstName with
    | directory => rfl
    | file old => rfl
  · obtain ⟨_, m₃, hpool, hmove⟩ := ok_of_bind hcopy
    obtain rfl := perform_ok hpool
    obtain ⟨data, m₄, hread, hstore⟩ := ok_of_bind hmove
    obtain ⟨rfl, hdata⟩ := readFile_ok hread
    obtain ⟨dst, m₅, hcreate, hwrite⟩ := ok_of_bind hstore
    obtain ⟨hcalls, hopened⟩ := openCreate_ok hcreate
    obtain ⟨old, hold, hwritten⟩ := writeFile_ok hwrite
    rw [hold] at hopened
    have hfile : opened (m.files dstRoot) dstName = .file old := (Option.some.inj hopened).symm
    have hmoved : bytesMoved fw m.calls content =
        min data.length (fw.moved m₅.calls data.length) := by
      rw [hcalls, bytesMoved, hdata]
    have htake : data.take (bytesMoved fw m.calls content) =
        content.take (bytesMoved fw m.calls content) := by
      rw [hdata, List.take_take, min_eq_left (bytesMoved_le_read ..)]
    rw [hfile, hwritten, ← hmoved, htake]

theorem take_append_drop_iff {α : Type} {xs ys : List α} {n : ℕ} :
    xs.take n ++ ys.drop n = xs ↔ ys.drop n = xs.drop n := by
  conv_lhs => rhs; rw [← List.take_append_drop n xs]
  exact List.append_right_inj _

section
variable {fw : Efi} {srcRoot dstRoot : Handle} {srcName dstName : EfiPath}
  {content : List UInt8} {m m' : Machine}

/-- The content of the destination, where a directory has none. -/
theorem copyFileOps_content (hsrc : (m.files srcRoot).lookup srcName = some (.file content))
    (h : copyFileOps fw srcRoot srcName dstRoot dstName m = (.ok (), m')) (data : List UInt8) :
    (m'.files dstRoot).content? dstName = some data ↔
      ∃ old, opened (m.files dstRoot) dstName = .file old ∧
        content.take (bytesMoved fw m.calls content) ++
          old.drop (bytesMoved fw m.calls content) = data := by
  have hdst := copyFileOps_ok hsrc h
  unfold FileTree.content?
  cases hopened : opened (m.files dstRoot) dstName with
  | directory =>
      rw [hopened] at hdst
      simp [hdst]
  | file old =>
      rw [hopened] at hdst
      simp [hdst]

/-- The copy is exact if and only if the destination was no directory and, behind the bytes
which were moved, already had the content of the source. -/
theorem copy_exact_iff (hsrc : (m.files srcRoot).lookup srcName = some (.file content))
    (h : copyFileOps fw srcRoot srcName dstRoot dstName m = (.ok (), m')) :
    (m'.files dstRoot).content? dstName = some content ↔
      ∃ old, opened (m.files dstRoot) dstName = .file old ∧
        old.drop (bytesMoved fw m.calls content) =
          content.drop (bytesMoved fw m.calls content) := by
  rw [copyFileOps_content hsrc h]
  simp only [take_append_drop_iff]

/-- Transfers which move all bytes asked for. -/
def MovesAll (fw : Efi) : Prop := ∀ call asked, asked ≤ fw.moved call asked

theorem bytesMoved_all (h : MovesAll fw) (calls : ℕ) (content : List UInt8) :
    bytesMoved fw calls content = content.length := by
  unfold bytesMoved
  rw [List.take_of_length_le (h _ _), min_eq_left (h _ _)]

/-- With transfers which move everything the copy is exact if and only if the destination was
not longer than the source. -/
theorem whole_copy_exact_iff (hall : MovesAll fw)
    (hsrc : (m.files srcRoot).lookup srcName = some (.file content))
    (h : copyFileOps fw srcRoot srcName dstRoot dstName m = (.ok (), m')) :
    (m'.files dstRoot).content? dstName = some content ↔
      ∃ old, opened (m.files dstRoot) dstName = .file old ∧ old.length ≤ content.length := by
  rw [copyFileOps_content hsrc h, bytesMoved_all hall]
  simp only [take_append_drop_iff, List.drop_length, List.drop_eq_nil_iff]

end

/-- A stick with a list of bad pages, and a disk with an older list. -/
def staleComputer (new old : String) : Machine where
  store := []
  files h := if h = 1 then .ofList [(usbBadmem, .file (ascii new))]
    else .ofList [(["EFI"], .directory), (internalBadmem, .file (ascii old))]
  sets := []
  calls := 0

def copyBadmem (m : Machine) : Except Refusal Unit × Machine :=
  copyFileOps usbEfi 1 usbBadmem 2 internalBadmem m

theorem copy_exact_shorter :
    ((copyBadmem (staleComputer "0x12000,4096" "")).2.files 2).content? internalBadmem =
      some (ascii "0x12000,4096") :=
  (@copy_exact_iff usbEfi 1 2 usbBadmem internalBadmem (ascii "0x12000,4096")
    (staleComputer "0x12000,4096" "") _ rfl (run_of_ok (by decide +kernel))).mpr
    ⟨[], rfl, by decide +kernel⟩

/-- The end of a longer list is kept, and an empty one replaces nothing. -/
theorem stale_tail_kept :
    (copyBadmem (staleComputer "0x1000,1" "0x2000,4096")).1 = .ok () ∧
      ((copyBadmem (staleComputer "0x1000,1" "0x2000,4096")).2.files 2).content? internalBadmem =
        some (ascii "0x1000,1096") ∧
      (copyBadmem (staleComputer "" "0x2000,4096")).1 = .ok () ∧
      ((copyBadmem (staleComputer "" "0x2000,4096")).2.files 2).content? internalBadmem =
        some (ascii "0x2000,4096") := by
  refine ⟨?_, ?_, ?_, ?_⟩ <;> decide +kernel

end BankFinder.CopyFile
