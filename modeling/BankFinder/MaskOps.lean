import BankFinder.BootNames
import BankFinder.EfiMachine
import BankFinder.MaskShim
import BankFinder.RestartScan

/-!
# Installing and uninstalling the shim

`install_mask_full` copies `mask-shim.efi` to the internal ESP, creates a boot entry
for it and puts the entry at the head of `BootOrder`; `uninstall_mask_full` takes this
back. Both are the work of `install.efi`, `revert.efi`, `brr-entry` and the shim itself.
-/

namespace BankFinder.MaskOps
open LittleEndian Nvram EfiMachine BootNames RestartScan

def brrVarnameOrigboot : String := "BrrBackupBootOrder"
def brrVarnameOrigbootLegacy : String := "A1990MaskOriginalBootOrder"
def brrVarnameBootslot : String := "BrrBootSlot"
def brrVarnameBootentries : String := "BrrBackupBootEntries"

def internalMaskDir : EfiPath := ["EFI", "BRR"]
def internalShimPath : EfiPath := ["EFI", "BRR", "mask-shim.efi"]
def internalBadmem : EfiPath := ["EFI", "BRR", "badmem.txt"]
def internalBackupDir : EfiPath := ["EFI", "BRR", "backup"]
def internalShimBackup : EfiPath := ["EFI", "BRR", "backup", "mask-shim.efi"]
def internalBadmemBkup : EfiPath := ["EFI", "BRR", "backup", "badmem.txt"]
def usbShimPath : EfiPath := ["EFI", "BOOT", "mask-shim.efi"]
def usbBadmem : EfiPath := ["EFI", "BOOT", "badmem.txt"]
def markerA : EfiPath := ["EFI", "BOOT", "mask-shim.efi"]
def markerB : EfiPath := ["EFI", "BOOT", "brr-entry.efi"]

def copyMaxBytes : ℕ := 4 * 1024 * 1024

/-- The size of the buffers for `BootOrder`. -/
def orderBufSize : ℕ := 256 * 2

section
variable {ε α : Type}

def readStore : EfiM ε Store := fun m => (.ok m.store, m)

/-- Whether a call returns `EFI_SUCCESS`. -/
def succeeds {δ : Type} (x : EfiM δ α) : EfiM ε Bool := fun m =>
  (.ok (match (x m).1 with
    | .ok _ => true
    | .error _ => false), (x m).2)

def orElse {δ : Type} (x : EfiM δ α) (y : EfiM ε α) : EfiM ε α := fun m =>
  match (x m).1 with
  | .ok a => (.ok a, (x m).2)
  | .error _ => y (x m).2

def maskNvramDelete (fw : Efi) (name : String) : EfiM ε Unit :=
  ignore (setVariable fw .brr name [])

def nvramDelGlobal (fw : Efi) (name : String) : EfiM ε Unit :=
  ignore (setVariable fw .global name [])

def maskNvramSetAscii (fw : Efi) (name val : String) : EfiM Refusal Unit :=
  setVariable fw .brr name (ascii val)

def mkdirPOps (fw : Efi) (root : Handle) (path : EfiPath) : EfiM ε Unit :=
  ignore (openCreate fw root path .directory)

/-- `delete_file_ops` -/
def deleteFileOps (fw : Efi) (root : Handle) (path : EfiPath) : EfiM ε Unit :=
  ignore do
    let _ ← openWrite fw root path
    deleteNode fw root path

/-- `copy_file_ops`. The source does not ask whether it has opened a directory, and copies what
the driver gives for one; here that is nothing, and the copy fails. -/
def copyFileOps (fw : Efi) (srcRoot : Handle) (srcName : EfiPath) (dstRoot : Handle)
    (dstName : EfiPath) : EfiM Refusal Unit := do
  let src ← openRead fw srcRoot srcName
  perform fw .getInfo
  match src with
  | .directory => fail accessDenied
  | .file content =>
      if copyMaxBytes < content.length then fail volumeFull
      else if content.length = 0 then do
        let _ ← openCreate fw dstRoot dstName (.file [])
        pure ()
      else do
        perform fw .allocatePool
        let data ← readFile fw content
        let _ ← openCreate fw dstRoot dstName (.file [])
        writeFile fw dstRoot dstName data

def opens (v : Volume) : Bool :=
  v.simpleFileSystem == efiSuccess && v.openVolume == efiSuccess

/-- The handles with a file system. -/
def locateHandles (fw : Efi) : EfiM Refusal (List Volume) := do
  perform fw .locateHandle
  if fw.volumes.isEmpty then fail notFound
  else do
    perform fw .allocatePool
    perform fw .locateHandle
    pure fw.volumes

def hasMarker (fw : Efi) (root : Handle) : EfiM Refusal Bool := do
  if ← succeeds (openRead fw root markerA) then pure true
  else succeeds (openRead fw root markerB)

/-- The first volume which holds a marker file. -/
def scanMarkers (fw : Efi) : List Volume → EfiM Refusal Handle
  | [] => fail notFound
  | v :: vs =>
      if !opens v then scanMarkers fw vs
      else do
        if ← hasMarker fw v.handle then pure v.handle else scanMarkers fw vs

def openUsbRootOps (fw : Efi) : EfiM Refusal Handle :=
  match fw.loadedImage with
  | .error e => fail e
  | .ok device =>
      if fw.volumes.any fun v => v.handle == device && opens v then pure device
      else do
        let handles ← locateHandles fw
        scanMarkers fw handles

/-- `usb_dev`: the device of the calling image, whichever that is. -/
def usbDev (fw : Efi) : Option Handle :=
  match fw.loadedImage with
  | .error _ => none
  | .ok device => some device

/-- The volume is not looked into: it is the caller's own, or removable, or does not open. -/
def passedOver (fw : Efi) (v : Volume) : Bool :=
  usbDev fw == some v.handle || v.removableMedia == some true || !opens v

/-- `cand_dev[]`: the remaining volumes with an `EFI` directory, at most eight. -/
def candidates (fw : Efi) : List Volume → List Handle → EfiM Refusal (List Handle)
  | [], found => pure found
  | v :: vs, found =>
      if passedOver fw v then candidates fw vs found
      else do
        if ← succeeds (openRead fw v.handle ["EFI"]) then
          candidates fw vs (if found.length < 8 then found ++ [v.handle] else found)
        else candidates fw vs found

def openInternalEspOps (fw : Efi) : EfiM Refusal Handle := do
  let handles ← locateHandles fw
  match ← candidates fw handles [] with
  | [] => fail notFound
  | [esp] => pure esp
  | _ => fail aborted

/-- What `GetNextVariableName` delivers into a buffer of 256 characters: it stops at the
first name which does not fit. -/
def visibleNames (fw : Efi) (store : Store) : List (Guid × String) :=
  (fw.enumerate store).takeWhile fun k => k.2.length < 256

def upperHex (c : Char) : Char :=
  if 'a' ≤ c ∧ c ≤ 'f' then Char.ofNat (c.toNat - 32) else c

/-- The digits of a name are appended as long as `csv[512]` has room. -/
def appendSlot (csv : List Char) (name : String) : List Char :=
  if csv.length + 6 < 512 then
    (if csv.isEmpty then csv else csv ++ [',']) ++ (name.toList.drop 4).map upperHex
  else csv

def bootSlotCsv (names : List (Guid × String)) : List Char :=
  names.foldl (fun csv k =>
    if k.1 = .global ∧ isBootEntry k.2 then appendSlot csv k.2 else csv) []

def saveExistingBootEntries (fw : Efi) : EfiM ε Unit := do
  let store ← readStore
  let csv := bootSlotCsv (visibleNames fw store)
  if csv.isEmpty then pure ()
  else ignore (setVariable fw .brr brrVarnameBootentries (csv.map fun c => UInt8.ofNat c.toNat))

/-- The length of a device path, its end node included. -/
def dpTotalLenOps : ℕ → List UInt8 → ℕ
  | 0, _ => 0
  | fuel + 1, p =>
      let nodeLen := (p.getD 2 0).toNat + 256 * (p.getD 3 0).toNat
      if p.getD 0 0 = 0x7f ∧ p.getD 1 0 = 0xff then nodeLen
      else nodeLen + dpTotalLenOps fuel (p.drop nodeLen)

/-- A string of 16-bit characters with its terminating NUL. -/
def ucs2 (text : String) : List UInt8 :=
  (text.toList ++ ['\x00']).flatMap fun c => encode 2 c.toNat

def filePathNode (path : String) : List UInt8 :=
  [0x04, 0x04] ++ encode 2 (4 + (path.length + 1) * 2) ++ ucs2 path

def endNode : List UInt8 := [0x7f, 0xff, 4, 0]

/-- The nodes of the device itself, without their end node. -/
def devicePrefix (fw : Efi) (device : Handle) : List UInt8 :=
  match (fw.volumes.find? fun v => v.handle == device).bind Volume.devicePath with
  | none => []
  | some dp => dp.take (dpTotalLenOps dp.length dp - 4)

def buildFullDevicePathOps (fw : Efi) (device : Handle) (path : String) :
    EfiM Refusal (List UInt8) := do
  perform fw .allocatePool
  pure (devicePrefix fw device ++ filePathNode path ++ endNode)

def filePathOnly (fw : Efi) (path : String) : EfiM Refusal (List UInt8) := do
  perform fw .allocatePool
  pure (filePathNode path ++ endNode)

def entryDescription : String := "BizarreRamRepair bad-RAM mask"

def loadOption (fullDp : List UInt8) : List UInt8 :=
  encode 4 1 ++ encode 2 fullDp.length ++ ucs2 entryDescription ++ fullDp

/-- The first slot below `0x01FF` whose variable does not exist. -/
def findFreeSlot (store : Store) : ℕ → UInt16 → Option UInt16
  | 0, _ => none
  | fuel + 1, slot =>
      if slot < 0x01FF then
        if (getVariable store .global (bootVarName slot) 0).1 = efiNotFound then some slot
        else findFreeSlot store fuel (slot + 1)
      else none

def shimEntryPath : String := "\\EFI\\BRR\\mask-shim.efi"

def installBootEntryOps (fw : Efi) (espDev : Handle) : EfiM Refusal UInt16 := do
  let fullDp ← orElse (buildFullDevicePathOps fw espDev shimEntryPath)
    (filePathOnly fw shimEntryPath)
  if 4096 < (loadOption fullDp).length then fail bufferTooSmall
  else do
    let store ← readStore
    match findFreeSlot store 255 0x0100 with
    | none => fail outOfResources
    | some slot => do
        setVariable fw .global (bootVarName slot) (loadOption fullDp)
        pure slot

/-- `current[]`, as far as it holds whole entries; a read which fails gives none. -/
def currentOrder (store : Store) : List UInt8 :=
  let r := getVariable store .global bootOrderName orderBufSize
  if r.1 = efiSuccess then r.2.take (r.2.length / 2 * 2) else []

def prependBootOrderOps (fw : Efi) (slot : UInt16) : EfiM Refusal Unit := do
  let store ← readStore
  setVariable fw .global bootOrderName (encode 2 slot.toNat ++ currentOrder store)

def saveBootOrder (fw : Efi) : EfiM ε Unit := do
  let store ← readStore
  let r := getVariable store .global bootOrderName orderBufSize
  if r.1 = efiSuccess ∧ 0 < r.2.length then
    ignore (setVariable fw .brr brrVarnameOrigboot r.2)
  else pure ()

structure InstallError where
  status : Refusal
  errMsg : String
  deriving DecidableEq

/-- Undo and give up with a message when a step fails. -/
def orFail (x : EfiM Refusal α) (errMsg : String) (undo : EfiM InstallError Unit) :
    EfiM InstallError α := fun m =>
  match (x m).1 with
  | .ok a => (.ok a, (x m).2)
  | .error e => (.error ⟨e, errMsg⟩, (undo (x m).2).2)

/-- The copies are best effort. -/
def backupBrrFiles (fw : Efi) (esp : Handle) : EfiM ε Unit := do
  if ← succeeds (openRead fw esp internalShimPath) then do
    mkdirPOps fw esp internalMaskDir
    mkdirPOps fw esp internalBackupDir
    ignore (copyFileOps fw esp internalShimPath esp internalShimBackup)
    ignore (copyFileOps fw esp internalBadmem esp internalBadmemBkup)
  else pure ()

def undoCopy (fw : Efi) (esp : Handle) : EfiM ε Unit := do
  deleteFileOps fw esp internalShimPath
  maskNvramDelete fw brrVarnameOrigboot
  maskNvramDelete fw brrVarnameBootentries

def undoEntry (fw : Efi) (esp : Handle) : EfiM ε Unit := do
  deleteFileOps fw esp internalShimPath
  deleteFileOps fw esp internalBadmem
  maskNvramDelete fw brrVarnameOrigboot
  maskNvramDelete fw brrVarnameBootentries

def undoOrder (fw : Efi) (esp : Handle) (slot : UInt16) : EfiM ε Unit := do
  nvramDelGlobal fw (bootVarName slot)
  maskNvramDelete fw brrVarnameBootslot
  maskNvramDelete fw brrVarnameOrigboot
  maskNvramDelete fw brrVarnameBootentries
  deleteFileOps fw esp internalShimPath
  deleteFileOps fw esp internalBadmem

/-- Where the shim comes from and where it goes. -/
def findVolumes (fw : Efi) : EfiM InstallError (Handle × Handle) := do
  let usbRoot ← orFail (openUsbRootOps fw) "cannot open USB volume" (pure ())
  let esp ← orFail (openInternalEspOps fw) "cannot find unique internal ESP" (pure ())
  pure (usbRoot, esp)

/-- The backups, and the directory for the shim. -/
def prepareEsp (fw : Efi) (esp : Handle) : EfiM InstallError Unit := do
  saveExistingBootEntries fw
  backupBrrFiles fw esp
  saveBootOrder fw
  mkdirPOps fw esp ["EFI"]
  mkdirPOps fw esp internalMaskDir

def copyShim (fw : Efi) (usbRoot esp : Handle) : EfiM InstallError Unit := do
  orFail (copyFileOps fw usbRoot usbShimPath esp internalShimPath)
    "failed to copy mask-shim.efi" (undoCopy fw esp)
  ignore (copyFileOps fw usbRoot usbBadmem esp internalBadmem)

def registerEntry (fw : Efi) (esp : Handle) : EfiM InstallError UInt16 := do
  let slot ← orFail (installBootEntryOps fw esp) "could not create BootNNNN variable"
    (undoEntry fw esp)
  ignore (setVariable fw .brr brrVarnameBootslot (encode 2 slot.toNat))
  pure slot

def activateEntry (fw : Efi) (esp : Handle) (slot : UInt16) : EfiM InstallError Unit := do
  orFail (prependBootOrderOps fw slot) "BootOrder update failed" (undoOrder fw esp slot)
  ignore (maskNvramSetAscii fw MaskShim.brrVarnameState MaskShim.statePermanentUnconfirmed)

def installMaskFull (fw : Efi) : EfiM InstallError Unit := do
  let (usbRoot, esp) ← findVolumes fw
  prepareEsp fw esp
  copyShim fw usbRoot esp
  let slot ← registerEntry fw esp
  activateEntry fw esp slot

/-- What is read of the saved boot order: the legacy name is tried when the canonical one
gives nothing. -/
def savedOrder (store : Store) : EfiStatus × List UInt8 :=
  let r := getVariable store .brr brrVarnameOrigboot orderBufSize
  if r.1 ≠ efiSuccess ∨ r.2.length = 0 then
    getVariable store .brr brrVarnameOrigbootLegacy orderBufSize
  else r

def restoreBootOrder (fw : Efi) : EfiM ε Unit := do
  let store ← readStore
  let r := savedOrder store
  if r.1 = efiSuccess ∧ 0 < r.2.length then
    ignore (setVariable fw .global bootOrderName r.2)
  else pure ()

/-- The slot which `BrrBootSlot` names, if it can be read. -/
def savedSlot (store : Store) : Option UInt16 :=
  let r := getVariable store .brr brrVarnameBootslot 2
  if r.1 = efiSuccess then some (UInt16.ofNat (decode r.2)) else none

def deleteBootEntry (fw : Efi) : EfiM ε Unit := do
  let store ← readStore
  match savedSlot store with
  | none => pure ()
  | some slot => nvramDelGlobal fw (bootVarName slot)

/-- `delete_file_log`, without what it prints. -/
def deleteFileLog (fw : Efi) (root : Handle) (path : EfiPath) : EfiM ε Unit :=
  deleteFileOps fw root path

/-- A directory goes only when it is empty. -/
def cleanFiles (fw : Efi) : EfiM ε Unit :=
  ignore do
    let esp ← openInternalEspOps fw
    deleteFileLog fw esp internalShimBackup
    deleteFileLog fw esp internalBadmemBkup
    deleteFileLog fw esp internalBackupDir
    deleteFileLog fw esp internalShimPath
    deleteFileLog fw esp internalBadmem
    deleteFileLog fw esp internalMaskDir

def knownVars : List String :=
  [MaskShim.brrVarnameState, BadPages.brrVarnameBadpages, ChipList.brrVarnameBadchips,
    brrVarnameOrigboot, brrVarnameOrigbootLegacy, brrVarnameBootentries, brrVarnameBootslot,
    "BrrMaskProbe", RowMask.varnameBadrows, MaskShim.varnameDecoderStatus,
    RowMask.legacyVarnameBadrows]

def deleteVars (fw : Efi) : List String → EfiM ε Unit
  | [] => pure ()
  | name :: names => do
      maskNvramDelete fw name
      deleteVars fw names

/-- Delete the variable when it is ours, and ask for a restart when that succeeded. -/
def sweepStep (fw : Efi) (k : Guid × String) (m : Machine) : Bool × Machine :=
  if k.1 = .brr then
    let r := setVariable fw k.1 k.2 [] m
    (r.1.isOk, r.2)
  else (false, m)

/-- The sweep within a bounded number of passes. -/
def sweepPasses (fw : Efi) (fuel : ℕ) (m : Machine) : Option Machine :=
  scan (fun m => visibleNames fw m.store) (sweepStep fw) fuel m

def sweep (fw : Efi) : EfiM ε Unit := fun m =>
  (.ok (), (sweepPasses fw (m.store.length + 1) m).getD m)

/-- It always returns `EFI_SUCCESS`. -/
def uninstallMaskFull (fw : Efi) : EfiM ε Unit := do
  restoreBootOrder fw
  deleteBootEntry fw
  cleanFiles fw
  deleteVars fw knownVars
  sweep fw

end

end BankFinder.MaskOps
