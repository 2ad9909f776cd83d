import BankFinder.AlignedWords
import BankFinder.Nvram

/-!
# Boot-time firmware session

The records which the masking programs share, and the part of the firmware they
act on: a page allocator over an arbitrary memory state, the variable store, the
keyboard and a trace of the calls made. The allocator answers as it likes; the
documented UEFI behaviour is one instance of it.
-/

namespace BankFinder.BootSession
open AlignedWords Nvram

/-- Memory descriptor types; codes outside the specification's list are vendor types. -/
inductive EfiMemoryType where
  | reservedMemoryType
  | loaderCode
  | loaderData
  | bootServicesCode
  | bootServicesData
  | runtimeServicesCode
  | runtimeServicesData
  | conventionalMemory
  | unusableMemory
  | acpiReclaimMemory
  | acpiMemoryNvs
  | memoryMappedIo
  | memoryMappedIoPortSpace
  | palCode
  | persistentMemory
  | vendor (code : UInt32)
  deriving DecidableEq, Repr

structure BadmemRange where
  start : UInt64
  len : UInt64
  deriving DecidableEq, Repr

structure BadmemChip where
  designator : List UInt8
  channel : UInt8
  rank : UInt8
  byteLane : UInt8
  resolved : Bool
  deriving DecidableEq, Repr

structure BadmemRow where
  channel : UInt8
  rank : UInt8
  bankGroup : UInt8
  bank : UInt8
  row : UInt32
  deriving DecidableEq, Repr

def badmemMaxRanges : ℕ := 4096
def badmemMaxChips : ℕ := 32
def badmemDesigMax : ℕ := 16
def badmemMaxRows : ℕ := 256

/-- `pa & ~0xfff` -/
def pageAlign (pa : UInt64) : UInt64 := clear pa 0xfff

theorem pageAlign_toNat (pa : UInt64) : (pageAlign pa).toNat = pa.toNat / 4096 * 4096 :=
  clear_toNat (k := 12) (by decide) rfl pa

theorem pageAlign_aligned (pa : UInt64) : 4096 ∣ (pageAlign pa).toNat :=
  clear_aligned (k := 12) (by decide) rfl pa

/-- The page addresses of `for (pa = lo; pa < hi; pa += 4096)`. -/
def pages (lo hi : UInt64) : List UInt64 := stride 4096 (hi.toNat / 4096 + 1) lo hi

theorem mem_pages {lo hi : UInt64} (hlo : 4096 ∣ lo.toNat) (hhi : 4096 ∣ hi.toNat)
    (pa : UInt64) : pa ∈ pages lo hi ↔ lo ≤ pa ∧ pa < hi ∧ 4096 ∣ pa.toNat := by
  have hfuel : hi.toNat ≤ lo.toNat + (hi.toNat / 4096 + 1) * (4096 : UInt64).toNat := by
    change hi.toNat ≤ lo.toNat + (hi.toNat / 4096 + 1) * 4096
    omega
  exact mem_stride (by decide) hlo hhi _ hfuel pa

theorem pages_sorted {lo hi : UInt64} (hlo : 4096 ∣ lo.toNat) (hhi : 4096 ∣ hi.toNat) :
    (pages lo hi).Pairwise (· < ·) := by
  unfold pages
  exact stride_sorted hlo hhi (by decide) _

theorem pages_length {lo hi : UInt64} (hlo : 4096 ∣ lo.toNat) (hhi : 4096 ∣ hi.toNat) :
    (pages lo hi).length = (hi.toNat - lo.toNat) / 4096 := by
  have hfuel : hi.toNat ≤ lo.toNat + (hi.toNat / 4096 + 1) * (4096 : UInt64).toNat := by
    change hi.toNat ≤ lo.toNat + (hi.toNat / 4096 + 1) * 4096
    omega
  exact stride_length hlo hhi (by decide) _ hfuel

/-- The page loop has ended by its own test: more iterations change nothing. -/
theorem pages_ended {lo hi : UInt64} (hlo : 4096 ∣ lo.toNat) (hhi : 4096 ∣ hi.toNat)
    (more : ℕ) : stride 4096 (hi.toNat / 4096 + 1 + more) lo hi = pages lo hi := by
  have hfuel : hi.toNat ≤ lo.toNat + (hi.toNat / 4096 + 1) * (4096 : UInt64).toNat := by
    change hi.toNat ≤ lo.toNat + (hi.toNat / 4096 + 1) * 4096
    omega
  exact stride_fuel hlo hhi _ more hfuel

theorem zero_aligned : 4096 ∣ (0 : UInt64).toNat := Nat.dvd_zero 4096

theorem pages_empty (lo : UInt64) : pages lo lo = [] := by
  unfold pages stride
  exact if_neg (UInt64.lt_irrefl lo)

/-- What a run did, in order: firmware calls and entries into the masking functions. -/
inductive Event where
  | allocatePages (addr : UInt64) (status : EfiStatus)
  | maskPages (ranges : List BadmemRange)
  | maskChips (chips : List BadmemChip)
  | maskRows (rows : List BadmemRow)
  | noBadMemory
  | setVariable (guid : Guid) (name : String) (data : List UInt8)
  | uninstallMask
  | startImage
  deriving DecidableEq, Repr

/-- `allocatePages` stands for `AllocatePages(AllocateAddress, EfiReservedMemoryType, 1, &addr)`. -/
structure Firmware (σ : Type) where
  allocatePages : UInt64 → σ → EfiStatus × σ
  refuseSet : Guid → String → List UInt8 → Option EfiStatus

structure Session (σ : Type) where
  mem : σ
  nvram : Store
  keys : List UInt16
  trace : List Event

section
variable {σ : Type}

/-- A session before any call. -/
def Session.start (mem : σ) (nvram : Store) (keys : List UInt16) : Session σ :=
  ⟨mem, nvram, keys, []⟩

def Session.log (s : Session σ) (e : Event) : Session σ := { s with trace := s.trace ++ [e] }

@[simp] theorem Session.log_mem (s : Session σ) (e : Event) : (s.log e).mem = s.mem := rfl
@[simp] theorem Session.log_nvram (s : Session σ) (e : Event) : (s.log e).nvram = s.nvram := rfl
@[simp] theorem Session.log_trace (s : Session σ) (e : Event) :
    (s.log e).trace = s.trace ++ [e] := rfl

def allocatePages (fw : Firmware σ) (addr : UInt64) (s : Session σ) : EfiStatus × Session σ :=
  let r := fw.allocatePages addr s.mem
  (r.1, { s with mem := r.2, trace := s.trace ++ [.allocatePages addr r.1] })

@[simp] theorem allocatePages_status (fw : Firmware σ) (addr : UInt64) (s : Session σ) :
    (allocatePages fw addr s).1 = (fw.allocatePages addr s.mem).1 := rfl
@[simp] theorem allocatePages_mem (fw : Firmware σ) (addr : UInt64) (s : Session σ) :
    (allocatePages fw addr s).2.mem = (fw.allocatePages addr s.mem).2 := rfl
@[simp] theorem allocatePages_trace (fw : Firmware σ) (addr : UInt64) (s : Session σ) :
    (allocatePages fw addr s).2.trace =
      s.trace ++ [.allocatePages addr (fw.allocatePages addr s.mem).1] := rfl

def setVariable (fw : Firmware σ) (guid : Guid) (name : String) (data : List UInt8)
    (s : Session σ) : EfiStatus × Session σ :=
  let r := Store.write (fw.refuseSet guid name data) s.nvram guid name data
  (r.1, { s with nvram := r.2, trace := s.trace ++ [.setVariable guid name data] })

/-- `mask_nvram_set_ascii`: the text is stored without its terminating NUL. -/
def maskNvramSetAscii (fw : Firmware σ) (name val : String) (s : Session σ) :
    EfiStatus × Session σ :=
  setVariable fw .brr name (ascii val) s

theorem setVariable_accepted {fw : Firmware σ} {guid : Guid} {name : String}
    {data : List UInt8} (s : Session σ) (hdata : data ≠ [])
    (h : fw.refuseSet guid name data = none) :
    (setVariable fw guid name data s).2.nvram.get? guid name = some data := by
  simp only [setVariable, h, Store.write]
  exact Store.get?_set s.nvram guid name hdata

def Event.attempted : Event → Option UInt64
  | .allocatePages addr _ => some addr
  | _ => none

/-- Addresses passed to `AllocatePages`, in call order. -/
def attempts (trace : List Event) : List UInt64 := trace.filterMap Event.attempted

@[simp] theorem attempts_append (t u : List Event) :
    attempts (t ++ u) = attempts t ++ attempts u := List.filterMap_append ..

@[simp] theorem attempts_allocatePages (addr : UInt64) (status : EfiStatus) :
    attempts [.allocatePages addr status] = [addr] := rfl
@[simp] theorem attempts_maskPages (ranges : List BadmemRange) :
    attempts [.maskPages ranges] = [] := rfl
@[simp] theorem attempts_maskChips (chips : List BadmemChip) :
    attempts [.maskChips chips] = [] := rfl

@[simp] theorem attempts_maskRows (rows : List BadmemRow) : attempts [.maskRows rows] = [] := rfl

/-- From `s` to `s'` no variable changes and nothing but the allocator is called. -/
structure OnlyAllocates (s s' : Session σ) : Prop where
  nvram : s'.nvram = s.nvram
  events : ∃ es, s'.trace = s.trace ++ es ∧ ∀ e ∈ es, e.attempted ≠ none

theorem OnlyAllocates.refl (s : Session σ) : OnlyAllocates s s :=
  ⟨rfl, [], by simp⟩

theorem OnlyAllocates.trans {s s' s'' : Session σ} (h : OnlyAllocates s s')
    (h' : OnlyAllocates s' s'') : OnlyAllocates s s'' := by
  obtain ⟨es, heq, hes⟩ := h.events
  obtain ⟨es', heq', hes'⟩ := h'.events
  refine ⟨h'.nvram.trans h.nvram, es ++ es', ?_, ?_⟩
  · rw [heq', heq, List.append_assoc]
  · intro e he
    rcases List.mem_append.mp he with he | he
    · exact hes e he
    · exact hes' e he

theorem onlyAllocates_allocatePages (fw : Firmware σ) (addr : UInt64) (s : Session σ) :
    OnlyAllocates s (allocatePages fw addr s).2 :=
  ⟨rfl, [.allocatePages addr (fw.allocatePages addr s.mem).1], rfl, by simp [Event.attempted]⟩

/-- A loop whose body only allocates, over an accumulator which holds the session. -/
theorem OnlyAllocates.foldl {A B : Type} {f : B → A → B} (session : B → Session σ)
    (h : ∀ b a, OnlyAllocates (session b) (session (f b a))) (xs : List A) (b : B) :
    OnlyAllocates (session b) (session (xs.foldl f b)) := by
  induction xs generalizing b with
  | nil => exact OnlyAllocates.refl (session b)
  | cons x xs ih => exact (h b x).trans (ih (f b x))

theorem OnlyAllocates.mem_trace {s s' : Session σ} (h : OnlyAllocates s s') {e : Event}
    (he : e.attempted = none) : e ∈ s'.trace ↔ e ∈ s.trace := by
  obtain ⟨es, heq, hes⟩ := h.events
  rw [heq, List.mem_append]
  constructor
  · intro hmem
    rcases hmem with hmem | hmem
    · exact hmem
    · exact absurd he (hes e hmem)
  · exact Or.inl

theorem OnlyAllocates.mem_attempts {s s' : Session σ} (h : OnlyAllocates s s') {pa : UInt64}
    (hpa : pa ∈ attempts s.trace) : pa ∈ attempts s'.trace := by
  obtain ⟨es, heq, -⟩ := h.events
  rw [heq, attempts_append]
  exact List.mem_append_left _ hpa

end

/-- The type of the page at each page address; `none` is a page outside the map. -/
abbrev MemoryMap := UInt64 → Option EfiMemoryType

/-- The documented allocator: only conventional memory can be claimed by address,
and a claimed page becomes reserved. -/
def uefi : Firmware MemoryMap where
  allocatePages addr m :=
    if m addr = some .conventionalMemory then
      (efiSuccess, Function.update m addr (some .reservedMemoryType))
    else (efiNotFound, m)
  refuseSet _ _ _ := none

/-- Memory types which the operating system takes over at `ExitBootServices`. -/
def EfiMemoryType.reusable : EfiMemoryType → Bool
  | .conventionalMemory | .loaderCode | .loaderData | .bootServicesCode | .bootServicesData => true
  | _ => false

end BankFinder.BootSession
