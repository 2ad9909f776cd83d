import BankFinder.LittleEndian

/-!
# NVRAM variables

The variable store as the boot programs see it through `GetVariable` and
`SetVariable`: a variable is named by a vendor GUID and a text, and its content
is a byte string. Writing a variable with size 0 deletes it.
-/

namespace BankFinder.Nvram
open LittleEndian

abbrev EfiStatus := UInt64

def efiSuccess : EfiStatus := 0
def efiInvalidParameter : EfiStatus := 0x8000000000000000 ||| 2
def efiUnsupported : EfiStatus := 0x8000000000000000 ||| 3
def efiBufferTooSmall : EfiStatus := 0x8000000000000000 ||| 5
def efiOutOfResources : EfiStatus := 0x8000000000000000 ||| 9
def efiNotFound : EfiStatus := 0x8000000000000000 ||| 14
def efiAccessDenied : EfiStatus := 0x8000000000000000 ||| 15

theorem efiUnsupported_ne_success : efiUnsupported ≠ efiSuccess := by decide

/-- Vendor GUIDs named by the sources; any other vendor is a number. -/
inductive Guid where
  | brr
  | global
  | apple
  | other (vendor : ℕ)
  deriving DecidableEq, Repr

structure Variable where
  guid : Guid
  name : String
  data : List UInt8
  deriving DecidableEq, Repr

abbrev Store := List Variable

def Variable.named (guid : Guid) (name : String) (v : Variable) : Bool :=
  v.guid == guid && v.name == name

def Store.get? (store : Store) (guid : Guid) (name : String) : Option (List UInt8) :=
  (store.find? (Variable.named guid name)).map Variable.data

def Store.set (store : Store) (guid : Guid) (name : String) (data : List UInt8) : Store :=
  let others := store.filter fun v => !v.named guid name
  if data.isEmpty then others else others ++ [⟨guid, name, data⟩]

theorem Store.find?_others (store : Store) (guid : Guid) (name : String) :
    (store.filter fun v => !v.named guid name).find? (Variable.named guid name) = none := by
  rw [List.find?_eq_none]
  intro v hv
  simpa using (List.mem_filter.mp hv).2

theorem Store.get?_set (store : Store) (guid : Guid) (name : String) {data : List UInt8}
    (h : data ≠ []) : (store.set guid name data).get? guid name = some data := by
  have hself : Variable.named guid name ⟨guid, name, data⟩ = true := by simp [Variable.named]
  simp only [Store.set, Store.get?, List.isEmpty_iff, if_neg h]
  rw [List.find?_append, Store.find?_others, Option.none_or, List.find?_singleton, if_pos hself]
  rfl

theorem Store.get?_set_empty (store : Store) (guid : Guid) (name : String) :
    (store.set guid name []).get? guid name = none := by
  rw [Store.set, List.isEmpty_nil, if_pos rfl, Store.get?, Store.find?_others, Option.map_none]

/-- Deleting a variable which exists leaves fewer variables. -/
theorem Store.length_set_empty {store : Store} {guid : Guid} {name : String}
    (h : store.get? guid name ≠ none) : (store.set guid name []).length < store.length := by
  rw [Store.set, List.isEmpty_nil, if_pos rfl, List.length_filter_lt_length_iff_exists]
  rw [Store.get?, Ne, Option.map_eq_none_iff, List.find?_eq_none] at h
  simp only [not_forall, Bool.not_eq_true] at h
  obtain ⟨v, hv, hnamed⟩ := h
  exact ⟨v, hv, by simpa using hnamed⟩

theorem Store.get?_set_other (store : Store) {guid guid' : Guid} {name name' : String}
    (data : List UInt8) (h : (guid', name') ≠ (guid, name)) :
    (store.set guid name data).get? guid' name' = store.get? guid' name' := by
  have hkeep : ∀ v : Variable, v.named guid' name' = true → (!v.named guid name) = true := by
    intro v hv
    simp only [Variable.named, Bool.and_eq_true, beq_iff_eq] at hv
    rw [Bool.not_eq_true', Bool.eq_false_iff]
    intro hv'
    simp only [Variable.named, Bool.and_eq_true, beq_iff_eq] at hv'
    exact h (by rw [← hv.1, ← hv.2, hv'.1, hv'.2])
  have hfind : (store.filter fun v => !v.named guid name).find? (Variable.named guid' name') =
      store.find? (Variable.named guid' name') := by
    rw [List.find?_filter]
    congr 1
    funext v
    have := hkeep v
    cases hv : v.named guid' name' <;> simp_all
  have hnew : Variable.named guid' name' ⟨guid, name, data⟩ = false := by
    rw [Bool.eq_false_iff]
    intro hv
    have := hkeep _ hv
    simp [Variable.named] at this
  simp only [Store.set, Store.get?]
  split_ifs
  · rw [hfind]
  · rw [List.find?_append, hfind]
    simp [hnew]

/-- `GetVariable` into a buffer of `cap` bytes. -/
def getVariable (store : Store) (guid : Guid) (name : String) (cap : ℕ) :
    EfiStatus × List UInt8 :=
  match store.get? guid name with
  | none => (efiNotFound, [])
  | some data => if cap < data.length then (efiBufferTooSmall, []) else (efiSuccess, data)

theorem getVariable_fits {store : Store} {guid : Guid} {name : String} {cap : ℕ}
    {data : List UInt8} (h : store.get? guid name = some data) (hcap : data.length ≤ cap) :
    getVariable store guid name cap = (efiSuccess, data) := by
  simp [getVariable, h, Nat.not_lt.mpr hcap]

/-- `SetVariable`; `refused` is the firmware's error when it rejects the write. -/
def Store.write (refused : Option EfiStatus) (store : Store) (guid : Guid) (name : String)
    (data : List UInt8) : EfiStatus × Store :=
  match refused with
  | some status => (status, store)
  | none => (efiSuccess, store.set guid name data)

/-- The bytes of an ASCII literal, without its terminating NUL. -/
def ascii (text : String) : List UInt8 := text.toList.map fun c => UInt8.ofNat c.toNat

/-- What a C string function sees of a NUL-terminated buffer. -/
def cString (bytes : List UInt8) : List UInt8 := bytes.takeWhile (· ≠ 0)

/-- `mask_nvram_get_ascii` with a buffer of `bufsz` bytes: the status, and the
text in the buffer when the variable was read. -/
def maskNvramGetAscii (store : Store) (name : String) (bufsz : ℕ) : EfiStatus × List UInt8 :=
  let r := getVariable store .brr name (bufsz - 1)
  if r.1 = efiSuccess then (r.1, cString r.2) else (r.1, [])

/-- `ascii_eq`: both strings run out together after equal characters. -/
def asciiEq : List UInt8 → List UInt8 → Bool
  | a :: as, b :: bs => a == b && asciiEq as bs
  | [], [] => true
  | _, _ => false

theorem asciiEq_iff (a b : List UInt8) : asciiEq a b = true ↔ a = b := by
  induction a generalizing b with
  | nil => cases b <;> simp [asciiEq]
  | cons x a ih =>
      cases b with
      | nil => simp [asciiEq]
      | cons y b => simp [asciiEq, ih]

end BankFinder.Nvram
