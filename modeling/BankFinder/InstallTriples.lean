import BankFinder.AutoInstall
import BankFinder.MaskInstall
import BankFinder.OutcomeTriples

/-!
# Invariants of the variables through the installer

A property of the variables which survives each single write of the installer survives
the installer, whatever the firmware answers and wherever it is rolled back. The slot of
a new entry is known to have been free, and the writes which follow may use that.
-/

namespace BankFinder.InstallTriples
open LittleEndian Nvram EfiMachine MachineFrame BootNames MaskOps MaskFrames Install BrrEntry
open AddressEntry AutoInstall BadPages MaskInstall OutcomeTriples

section
variable {ε α β : Type} {I : Store → Prop} {Q : α → Prop}

/-- A property of the variables, as one of the machine. -/
def Vars (I : Store → Prop) (m : Machine) : Prop := I m.store

/-- Outside `K` both stores hold the same. -/
def Agree (K : Set (Guid × String)) (store store' : Store) : Prop :=
  ∀ k ∉ K, store'.get? k.1 k.2 = store.get? k.1 k.2

theorem Agree.refl (K : Set (Guid × String)) (s : Store) : Agree K s s := fun _ _ => rfl

theorem Agree.trans {K : Set (Guid × String)} {s s' s'' : Store} (h : Agree K s s')
    (h' : Agree K s' s'') : Agree K s s'' := fun k hk => (h' k hk).trans (h k hk)

theorem kept_of_maintains {x : EfiM ε α} (hx : Maintains (Vars I) x Q) {m : Machine}
    (hm : I m.store) : I (x m).2.store :=
  (hx.conseq (fun _ hs => hs) (fun _ _ hs => hs.1) fun _ hs => hs).after hm

theorem bind_eq_seq (x : EfiM ε α) (f : α → EfiM ε β) : (x >>= f : EfiM ε β) = seq x f := by
  funext m
  rw [bind_run]
  unfold seq
  rcases x m with ⟨e | a, m'⟩
  · rfl
  · rfl

theorem maintains_bind {x : EfiM ε α} {f : α → EfiM ε β} {R : β → Prop}
    (hx : Maintains (Vars I) x Q) (hf : ∀ a, Q a → Maintains (Vars I) (f a) R) :
    Maintains (Vars I) (x >>= f : EfiM ε β) R := by
  rw [bind_eq_seq]
  exact Maintains.seq hx hf

theorem maintains_ignore {δ : Type} {x : EfiM δ α} (hx : Maintains (Vars I) x Q) :
    Maintains (Vars I) (ignore x : EfiM ε Unit) fun _ => True :=
  Maintains.discard hx

theorem orFail_eq_recover (x : EfiM Refusal α) (errMsg : String) (undo : EfiM InstallError Unit) :
    orFail x errMsg undo = recover x undo fun e => ⟨e, errMsg⟩ := by
  funext m
  unfold orFail recover
  rcases x m with ⟨e | a, m'⟩
  · rfl
  · rfl

theorem maintains_orFail {x : EfiM Refusal α} {undo : EfiM InstallError Unit}
    (hx : Maintains (Vars I) x Q) (errMsg : String)
    (hundo : Maintains (Vars I) undo fun _ => True) :
    Maintains (Vars I) (orFail x errMsg undo) Q := by
  rw [orFail_eq_recover]
  exact Maintains.recover hx hundo

theorem maintains_pure {a : α} (h : Q a) : Maintains (Vars I) (pure a : EfiM ε α) Q :=
  Triple.answer fun _ hm => ⟨a, rfl, hm, h⟩

theorem maintains_fail (e : ε) : Maintains (Vars I) (fail e : EfiM ε α) Q :=
  Triple.refuse fun _ hm => ⟨e, rfl, hm⟩

theorem maintains_of_after {x : EfiM ε α} (h : ∀ m, I m.store → I (x m).2.store) :
    Maintains (Vars I) x fun _ => True :=
  (Triple.of_after h).conseq (fun _ hm => hm) (fun _ _ hm => ⟨hm, trivial⟩) fun _ hm => hm

theorem maintains_reads {x : EfiM ε α} (hx : Reads x) : Maintains (Vars I) x fun _ => True :=
  maintains_of_after fun m hm => by rwa [hx.store m]

theorem maintains_readStore : Maintains (Vars I) (readStore : EfiM ε Store) I :=
  Triple.answer fun m hm => ⟨m.store, rfl, hm, hm⟩

theorem maintains_writes {F : Set (Handle × EfiPath)} {x : EfiM ε α} (hx : Writes F x) :
    Maintains (Vars I) x fun _ => True :=
  maintains_of_after fun m hm => by rwa [(hx.sameVars m).1]

theorem maintains_frame {K : Set (Guid × String)} {x : EfiM ε α}
    (hI : ∀ {s s'}, Agree K s s' → I s → I s') (hx : Keeps (Frame K Set.univ) x) :
    Maintains (Vars I) x fun _ => True :=
  maintains_of_after fun m hm => hI (hx m).vars hm

theorem maintains_setVariable (fw : Efi) {guid : Guid} {name : String} {data : List UInt8}
    (h : ∀ s, I s → I (s.set guid name data)) :
    Maintains (Vars I) (setVariable fw guid name data) fun _ => True := by
  refine maintains_of_after fun m hm => ?_
  rcases setVariable_cases fw guid name data m with ⟨hrun, -⟩ | ⟨e, hrun, -⟩
  · rw [hrun]
    exact h m.store hm
  · rw [hrun]
    exact hm

end

/-- What a property of the variables has to withstand: each write of the installer. `Ours`
is what may be known of a slot once it was found free. -/
structure WithstandsInstall (I : Store → Prop) (Ours : UInt16 → Prop) : Prop where
  backups : ∀ {s s'}, Agree backupVars s s' → I s → I s'
  free : ∀ {s} slot, s.get? .global (bootVarName slot) = none → I s → Ours slot
  entry : ∀ {s s'} slot, Ours slot → Agree {(.global, bootVarName slot)} s s' → I s → I s'
  record : ∀ {s} slot, Ours slot → I s → I (s.set .brr brrVarnameBootslot (encode 2 slot.toNat))
  unrecord : ∀ {s}, I s → I (s.set .brr brrVarnameBootslot [])
  order : ∀ {s s'}, Agree {(.global, bootOrderName)} s s' → I s → I s'
  state : ∀ {s}, I s → I (s.set .brr MaskShim.brrVarnameState
    (ascii MaskShim.statePermanentUnconfirmed))

section
variable {I : Store → Prop} {Ours : UInt16 → Prop}

theorem maintains_copyShim (h : WithstandsInstall I Ours) (fw : Efi) (usbRoot esp : Handle) :
    Maintains (Vars I) (copyShim fw usbRoot esp) fun _ => True := by
  refine maintains_bind (maintains_orFail (maintains_writes (writes_copyFileOps fw _ _
    (Set.mem_univ _))) _ ?_) fun _ _ => ?_
  · exact maintains_frame h.backups (frame_undoCopy fw esp (by simp [backupVars])
      (by simp [backupVars]))
  · exact maintains_ignore (maintains_writes (writes_copyFileOps fw _ _ (Set.mem_univ _)))

theorem maintains_installBootEntryOps (h : WithstandsInstall I Ours) (fw : Efi) (esp : Handle) :
    Maintains (Vars I) (installBootEntryOps fw esp) Ours := by
  constructor
  · intro m slot m' hm hrun
    obtain ⟨hfound, -, hframe⟩ := installBootEntryOps_ok hrun
    have hours := h.free slot (findFreeSlot_free hfound) hm
    exact ⟨h.entry slot hours hframe.vars hm, hours⟩
  · intro m e m' hm hrun
    have hframe := installBootEntryOps_error hrun
    exact h.backups (fun k _ => hframe.vars k (Set.notMem_empty k)) hm

theorem maintains_registerEntry (h : WithstandsInstall I Ours) (fw : Efi) (esp : Handle) :
    Maintains (Vars I) (registerEntry fw esp) Ours := by
  refine maintains_bind (maintains_orFail (maintains_installBootEntryOps h fw esp) _ ?_)
    fun slot hours => ?_
  · exact maintains_frame h.backups (frame_undoEntry fw esp (by simp [backupVars])
      (by simp [backupVars]))
  · refine maintains_bind (maintains_ignore (maintains_setVariable fw ?_)) fun _ _ =>
      maintains_pure hours
    exact fun s hs => h.record slot hours hs

theorem maintains_undoOrder (h : WithstandsInstall I Ours) (fw : Efi) (esp : Handle)
    {slot : UInt16} (hours : Ours slot) :
    Maintains (Vars I) (undoOrder fw esp slot : EfiM InstallError Unit) fun _ => True := by
  refine maintains_bind (Q := fun _ => True) ?_ fun _ _ => maintains_bind (Q := fun _ => True) ?_
    fun _ _ => ?_
  · exact maintains_frame (h.entry slot hours) (frame_nvramDelGlobal fw (Set.mem_singleton _))
  · exact maintains_ignore (maintains_setVariable fw fun _ hs => h.unrecord hs)
  · exact maintains_frame h.backups <|
      (frame_maskNvramDelete fw (Or.inl (by simp [backupVars]))).bind fun _ =>
        (frame_maskNvramDelete fw (Or.inl (by simp [backupVars]))).bind fun _ =>
          (writes_deleteFileOps fw (Set.mem_univ _)).frame.bind fun _ =>
            (writes_deleteFileOps fw (Set.mem_univ _)).frame

theorem maintains_activateEntry (h : WithstandsInstall I Ours) (fw : Efi) (esp : Handle)
    {slot : UInt16} (hours : Ours slot) :
    Maintains (Vars I) (activateEntry fw esp slot) fun _ => True := by
  refine maintains_bind (Q := fun _ => True) (maintains_orFail ?_ _
    (maintains_undoOrder h fw esp hours)) fun _ _ => ?_
  · exact maintains_frame h.order (frame_prependBootOrderOps fw slot (Set.mem_singleton _))
  · exact maintains_ignore (maintains_setVariable fw fun _ hs => h.state hs)

theorem maintains_installMaskFull (h : WithstandsInstall I Ours) (fw : Efi) :
    Maintains (Vars I) (installMaskFull fw) fun _ => True := by
  refine maintains_bind (maintains_reads (reads_findVolumes fw)) fun volumes _ => ?_
  refine maintains_bind (Q := fun _ => True) (maintains_frame h.backups fun m => ?_) fun _ _ => ?_
  · exact (frame_prepareEsp fw volumes.2 m).mono subset_rfl (Set.subset_univ _)
  refine maintains_bind (maintains_copyShim h fw volumes.1 volumes.2) fun _ _ => ?_
  exact maintains_bind (maintains_registerEntry h fw volumes.2) fun slot hours =>
    maintains_activateEntry h fw volumes.2 hours

/-- The state of a trial with listed pages can be written. -/
def WithstandsTrial (I : Store → Prop) : Prop :=
  ∀ s, I s → I (s.set .brr MaskShim.brrVarnameState (ascii MaskShim.stateTrialPendingPage))

theorem maintains_autoInstall (h : WithstandsInstall I Ours) (htrial : WithstandsTrial I)
    (fw : Efi) : Maintains (Vars I) (autoInstall fw) fun _ => True := by
  refine maintains_bind maintains_readStore fun store _ => ?_
  split_ifs
  · exact maintains_pure trivial
  · refine maintains_bind (Q := fun _ => True) ?_ fun installed _ => ?_
    · exact maintains_of_after fun m hm => kept_of_maintains (maintains_installMaskFull h fw) hm
    · split_ifs
      · exact maintains_ignore (maintains_setVariable fw htrial)
      · exact maintains_pure trivial

theorem maintains_applySaved (h : WithstandsInstall I Ours) (htrial : WithstandsTrial I)
    (fw : Efi) : Maintains (Vars I) (applySaved fw) fun _ => True :=
  maintains_bind (maintains_ignore (maintains_setVariable fw htrial)) fun _ _ =>
    maintains_bind (maintains_autoInstall h htrial fw) fun _ _ =>
      maintains_reads (reads_bootShim fw)

theorem maintains_applyTyped (h : WithstandsInstall I Ours) (htrial : WithstandsTrial I)
    (fw : Efi) {pas : List UInt64}
    (hlist : ∀ s, I s → I (s.set .brr brrVarnameBadpages (badpagesBlob pas))) :
    Maintains (Vars I) (applyTyped fw pas) fun _ => True :=
  maintains_bind (maintains_setVariable fw hlist) fun _ _ =>
    maintains_bind (maintains_setVariable fw htrial) fun _ _ =>
      maintains_bind (maintains_autoInstall h htrial fw) fun _ _ =>
        maintains_reads (reads_bootShim fw)

/-- What withstands the writes of the installer and the two of `brr-entry` withstands a run. -/
theorem kept_by_brrEntry (h : WithstandsInstall I Ours) (htrial : WithstandsTrial I) (fw : Efi)
    {polls : List Poll} {m : Machine}
    (hlist : ∀ pas s, I s → I (s.set .brr brrVarnameBadpages (badpagesBlob pas)))
    (hm : I m.store) : I (efiMain fw polls m).2.store := by
  cases hchoice : prompts m.store polls with
  | ends o =>
      rw [efiMain_ends hchoice]
      exact hm
  | saved =>
      rw [efiMain_saved hchoice]
      exact kept_of_maintains (maintains_applySaved h htrial fw) hm
  | typed pas =>
      rw [efiMain_typed hchoice]
      exact kept_of_maintains (maintains_applyTyped h htrial fw (hlist pas)) hm

theorem statusOf_state {α : Type} (x : EfiM InstallError α) (m : Machine) :
    (statusOf x m).2 = (x m).2 := by
  unfold statusOf
  rcases x m with ⟨e | a, m'⟩
  · rfl
  · rfl

/-- A run which does not uninstall probes the variables and installs on request. -/
theorem kept_by_installMain {polls : List Poll}
    (h : installConfirmed polls = true → WithstandsInstall I Ours)
    (hprobe : ∀ {s s'}, Agree {(.brr, varnameProbe)} s s' → I s → I s') (fw : Efi)
    {loadOptions : Option (List UInt16)} {m : Machine}
    (hasked : uninstallFlag loadOptions = false ∨ (uninstallPromptYesno 30 polls).1 = false)
    (hm : I m.store) : I (installMain fw loadOptions polls m).2.store := by
  have hprobed : Maintains (Vars I) (probeNvram fw) fun _ => True :=
    maintains_frame hprobe ((frame_setVariable fw _ (Set.mem_singleton _)).bind fun _ =>
      (frame_setVariable fw _ (Set.mem_singleton _)).ignore)
  have hinstalled (hyes : installConfirmed polls = true) :
      Maintains (Vars I) (statusOf (installMaskFull fw)) fun _ => True := by
    refine maintains_of_after fun m hm => ?_
    rw [statusOf_state]
    exact kept_of_maintains (maintains_installMaskFull (h hyes) fw) hm
  refine kept_of_maintains (Q := fun _ => True) ?_ hm
  unfold installMain
  split_ifs with hflag hyes hconfirmed
  · rcases hasked with hasked | hasked
    · exact absurd hflag (by simp [hasked])
    · exact absurd hyes (by simp [hasked])
  · exact maintains_fail aborted
  · exact maintains_bind hprobed fun _ _ => hinstalled hconfirmed
  · exact maintains_bind hprobed fun _ _ => maintains_fail aborted

end

end BankFinder.InstallTriples
