import BankFinder.BrrEntry
import BankFinder.TaggedNodes

/-!
# Device paths of files

The path of a file is the path of its device with one more node. Three programs build it,
with three ways to find out where the end node of the device path is: the shim and the
installer subtract 4 from the total length, the address entry program stops at the end
node. The shim also walks along such a path when it asks a volume for its blessed file.
-/

namespace BankFinder.DevicePaths
open LittleEndian TaggedNodes Nvram EfiMachine MaskOps BrrEntry

def endType : UInt8 := 0x7f
def endSubType : UInt8 := 0xff
def mediaType : UInt8 := 4
def filePathSubType : UInt8 := 4

/-- `dp_total_len` -/
def dpTotalLen : ℕ → List UInt8 → ℕ := dpTotalLenOps

/-- `hw_dp`: what `HandleProtocol` answers. -/
def hwDp (fw : Efi) (device : Handle) : Option (List UInt8) :=
  (fw.volumes.find? fun v => v.handle == device).bind Volume.devicePath

def hardwarePrefix (fw : Efi) (device : Handle) : List UInt8 :=
  match hwDp fw device with
  | none => []
  | some dp =>
      let total := dpTotalLen dp.length dp
      dp.take (if 4 ≤ total then total - 4 else 0)

def buildFileDevicePath (fw : Efi) (device : Handle) (path : List UInt16) :
    EfiM Refusal (List UInt8) := do
  let fpSz := 4 + (path.length + 1) * 2
  perform fw .allocatePool
  pure (hardwarePrefix fw device ++
    ([mediaType, filePathSubType] ++ encode 2 fpSz ++ unitBytes (path ++ [0])) ++ endNode)

/-- `for (i = 0; i < chars && src[i] != 0 && pos + 1 < out_cap; i++)` -/
def copyUnits (outCap : ℕ) : List UInt16 → List UInt16 → List UInt16
  | out, [] => out
  | out, c :: src =>
      if c ≠ 0 ∧ out.length + 1 < outCap then copyUnits outCap (out ++ [c]) src else out

/-- `p` is what lies between the pointer and `end`. -/
def blessWalk (outCap : ℕ) : ℕ → List UInt8 → List UInt16 → List UInt16
  | 0, _, out => out
  | fuel + 1, p, out =>
      if 4 ≤ p.length then
        let nlen := lengthField p
        if nlen < 4 ∨ p.length < nlen then out
        else if p.getD 0 0 = endType ∧ p.getD 1 0 = endSubType then out
        else
          blessWalk outCap fuel (p.drop nlen)
            (if p.getD 0 0 = mediaType ∧ p.getD 1 0 = filePathSubType then
              copyUnits outCap out ((units (p.drop 4)).take ((nlen - 4) / 2))
            else out)
      else out

/-- `info` is the answer to `GetInfo`. -/
def appleBlessGetPath (info : Option (List UInt8)) (outCap : ℕ) : Option (List UInt16) :=
  if outCap < 2 then none
  else
    match info with
    | none => none
    | some info =>
        if info.length < 4 then none
        else
          let out := blessWalk outCap info.length info []
          if 0 < out.length then some out else none

/-- `sizeof(full_path) / sizeof(full_path[0])` -/
def fullPathCap : ℕ := 512

/-- The nodes in front of the end node. -/
structure DevicePath where
  nodes : List TaggedNode
  inner : ∀ n ∈ nodes, ¬n.is endType endSubType

def DevicePath.bytes (dp : DevicePath) : List UInt8 := bytesOf dp.nodes ++ endNode

/-- A string which fits into the path buffers of the callers. -/
structure FileName where
  chars : List UInt16
  nonempty : chars ≠ []
  noNul : 0 ∉ chars
  fits : chars.length < fullPathCap

def FileName.node (path : FileName) : TaggedNode where
  type := mediaType
  subType := filePathSubType
  body := unitBytes (path.chars ++ [0])
  short := by
    have hfits : path.chars.length < 512 := path.fits
    rw [length_unitBytes, List.length_append, List.length_singleton]
    omega

/-- The path of a file on the device. -/
def DevicePath.withFile (dp : DevicePath) (path : FileName) : DevicePath where
  nodes := dp.nodes ++ [path.node]
  inner := by
    intro n hn
    rcases List.mem_append.mp hn with hn | hn
    · exact dp.inner n hn
    · rw [List.mem_singleton.mp hn]
      exact fun h => absurd h.1 (show mediaType ≠ endType by decide)

/-- `HandleProtocol` fails, or it gives the path and whatever lies behind it. -/
def Answers (fw : Efi) (device : Handle) (dp : DevicePath) : Prop :=
  match hwDp fw device with
  | none => dp.nodes = []
  | some bytes => ∃ rest, bytes = dp.bytes ++ rest

theorem dpTotalLenOps_inner {n : TaggedNode} (h : ¬n.is endType endSubType)
    (fuel : ℕ) (rest : List UInt8) :
    dpTotalLenOps (fuel + 1) (n.bytes ++ rest) = n.size + dpTotalLenOps fuel rest := by
  have hinner : ¬(n.type = 0x7f ∧ n.subType = 0xff) := h
  have hlen : ((n.bytes ++ rest).getD 2 0).toNat + 256 * ((n.bytes ++ rest).getD 3 0).toNat =
      n.size := n.lengthField_bytes rest
  rw [dpTotalLenOps]
  simp only [hlen, n.getD_type, n.getD_subType, n.drop_size, if_neg hinner]

theorem prefixLen_inner {n : TaggedNode} (h : ¬n.is endType endSubType)
    (fuel : ℕ) (rest : List UInt8) :
    prefixLen (fuel + 1) (n.bytes ++ rest) = n.size + prefixLen fuel rest := by
  have hinner : ¬(n.type = 0x7f ∧ n.subType = 0xff) := h
  have hlen : ((n.bytes ++ rest).getD 2 0).toNat + 256 * ((n.bytes ++ rest).getD 3 0).toNat =
      n.size := n.lengthField_bytes rest
  rw [prefixLen]
  simp only [hlen, n.getD_type, n.getD_subType, n.drop_size, if_neg hinner]

/-- The walk along a device path ends with its length, whatever follows. -/
theorem dpTotalLen_bytes (dp : DevicePath) {fuel : ℕ} (h : dp.nodes.length < fuel)
    (rest : List UInt8) : dpTotalLen fuel (dp.bytes ++ rest) = dp.bytes.length := by
  obtain ⟨k, rfl⟩ := Nat.exists_eq_add_of_lt h
  have hwalk := walk_nodes (fun n hn => @dpTotalLenOps_inner n hn) dp.inner (k + 1)
    (endNode ++ rest)
  rw [dpTotalLen, DevicePath.bytes, List.append_assoc, Nat.add_assoc, hwalk, List.length_append]
  rfl

theorem prefixLen_bytes (dp : DevicePath) {fuel : ℕ} (h : dp.nodes.length < fuel)
    (rest : List UInt8) : prefixLen fuel (dp.bytes ++ rest) = (bytesOf dp.nodes).length := by
  obtain ⟨k, rfl⟩ := Nat.exists_eq_add_of_lt h
  have hwalk := walk_nodes (fun n hn => @prefixLen_inner n hn) dp.inner (k + 1) (endNode ++ rest)
  rw [DevicePath.bytes, List.append_assoc, Nat.add_assoc, hwalk]
  rfl

theorem length_nodes_lt (dp : DevicePath) (rest : List UInt8) :
    dp.nodes.length < (dp.bytes ++ rest).length := by
  have hle := length_nodes_le dp.nodes
  have hend : endNode.length = 4 := rfl
  rw [DevicePath.bytes, List.length_append, List.length_append]
  omega

section
variable {fw : Efi} {device : Handle} {dp : DevicePath}

theorem hardwarePrefix_eq (h : Answers fw device dp) :
    hardwarePrefix fw device = bytesOf dp.nodes := by
  unfold Answers at h
  unfold hardwarePrefix
  cases hdp : hwDp fw device with
  | none =>
      rw [hdp] at h
      rw [h]
      rfl
  | some bytes =>
      rw [hdp] at h
      obtain ⟨rest, rfl⟩ := h
      have hlen : dp.bytes.length = (bytesOf dp.nodes).length + 4 := List.length_append
      simp only [dpTotalLen_bytes dp (length_nodes_lt dp rest)]
      rw [if_pos (by omega), hlen, Nat.add_sub_cancel, DevicePath.bytes, List.append_assoc,
        List.take_left]

theorem devicePrefix_eq (fw : Efi) (device : Handle) :
    devicePrefix fw device = hardwarePrefix fw device := by
  unfold devicePrefix hardwarePrefix hwDp
  cases (fw.volumes.find? fun v => v.handle == device).bind Volume.devicePath with
  | none => rfl
  | some bytes =>
      by_cases htotal : 4 ≤ dpTotalLen bytes.length bytes
      · simp only [if_pos htotal]
        rfl
      · have hzero : dpTotalLenOps bytes.length bytes - 4 = 0 := by
          unfold dpTotalLen at htotal
          omega
        simp only [if_neg htotal, hzero]

theorem prefixLen_eq {rest : List UInt8} :
    (dp.bytes ++ rest).take (prefixLen (dp.bytes ++ rest).length (dp.bytes ++ rest)) =
      bytesOf dp.nodes := by
  rw [prefixLen_bytes dp (length_nodes_lt dp rest), DevicePath.bytes, List.append_assoc,
    List.take_left]

end

/-- The characters of a string literal. -/
def charsOf (text : String) : List UInt16 := text.toList.map fun c => UInt16.ofNat c.toNat

theorem encode_ofNat (v : ℕ) : encode 2 (UInt16.ofNat v).toNat = encode 2 v := by
  have hmod : (UInt16.ofNat v).toNat = v % 2 ^ 16 := UInt16.toNat_ofNat'
  rw [hmod]
  simp only [encode]
  have hlow : UInt8.ofNat (v % 2 ^ 16) = UInt8.ofNat v := by
    apply UInt8.toNat_inj.mp
    rw [UInt8.toNat_ofNat', UInt8.toNat_ofNat']
    omega
  have hhigh : UInt8.ofNat (v % 2 ^ 16 / 256) = UInt8.ofNat (v / 256) := by
    apply UInt8.toNat_inj.mp
    rw [UInt8.toNat_ofNat', UInt8.toNat_ofNat']
    omega
  rw [hlow, hhigh]

theorem ucs2_eq (text : String) : ucs2 text = unitBytes (charsOf text ++ [0]) := by
  have hmap : charsOf text ++ [0] =
      (text.toList ++ ['\x00']).map fun c => UInt16.ofNat c.toNat := by
    rw [List.map_append]
    rfl
  rw [hmap, ucs2, unitBytes, List.flatMap_map]
  simp only [encode_ofNat]

theorem filePathNode_eq {text : String} {path : FileName} (h : charsOf text = path.chars) :
    filePathNode text = path.node.bytes := by
  have hlen : text.length = path.chars.length := by
    rw [← h, charsOf, List.length_map, String.length_toList]
  have hsize : path.node.size = 4 + (text.length + 1) * 2 := by
    rw [TaggedNode.size, FileName.node, length_unitBytes, hlen, List.length_append,
      List.length_singleton]
    omega
  rw [filePathNode, ucs2_eq, h, TaggedNode.bytes, hsize]
  rfl

theorem withFile_bytes (dp : DevicePath) (path : FileName) :
    (dp.withFile path).bytes = bytesOf dp.nodes ++ path.node.bytes ++ endNode := by
  unfold DevicePath.bytes DevicePath.withFile bytesOf
  rw [List.flatMap_append, List.flatMap_singleton]

theorem text_node (path : FileName) : path.node.text = path.chars := by
  have hunits : units path.node.body = path.chars ++ [0] := by
    have hbody := units_unitBytes (path.chars ++ [0]) []
    rw [List.append_nil] at hbody
    rw [FileName.node, hbody, units, List.append_nil]
    simp
  rw [TaggedNode.text, hunits]
  exact textOf_terminated path.noNul []

theorem copyUnits_eq {outCap : ℕ} (src : List UInt16) {out : List UInt16}
    (h : out.length < outCap) :
    copyUnits outCap out src = out ++ (textOf src).take (outCap - 1 - out.length) := by
  induction src generalizing out with
  | nil => simp [copyUnits]
  | cons c src ih =>
      unfold copyUnits
      split_ifs with hc
      · have hroom : outCap - 1 - out.length = (outCap - 1 - (out ++ [c]).length) + 1 := by
          rw [List.length_append, List.length_singleton]
          omega
        rw [ih (by rw [List.length_append, List.length_singleton]; exact hc.2), hroom,
          textOf_cons hc.1, List.take_succ_cons, List.append_assoc, List.singleton_append]
      · rcases not_and_or.mp hc with hzero | hfull
        · rw [not_not.mp hzero, textOf_zero, List.take_nil, List.append_nil]
        · rw [show outCap - 1 - out.length = 0 by omega, List.take_zero, List.append_nil]

/-- Copying one text after another cuts both together. -/
theorem take_texts (out text more : List UInt16) (room : ℕ) :
    out ++ text.take (room - out.length) ++
        more.take (room - (out ++ text.take (room - out.length)).length) =
      out ++ (text ++ more).take (room - out.length) := by
  rw [List.append_assoc, List.take_append, List.length_append, List.length_take,
    show room - (out.length + min (room - out.length) text.length) =
      room - out.length - text.length by omega]

theorem length_copyUnits_lt {outCap : ℕ} (src : List UInt16) {out : List UInt16}
    (h : out.length < outCap) : (copyUnits outCap out src).length < outCap := by
  rw [copyUnits_eq src h, List.length_append, List.length_take]
  omega

theorem blessWalk_inner {outCap fuel : ℕ} {n : TaggedNode} (h : ¬n.is endType endSubType)
    (rest : List UInt8) (out : List UInt16) :
    blessWalk outCap (fuel + 1) (n.bytes ++ rest) out = blessWalk outCap fuel rest
      (if n.is mediaType filePathSubType then copyUnits outCap out (units n.body) else out) := by
  have hlen : (n.bytes ++ rest).length = n.size + rest.length := by
    rw [List.length_append, n.length_bytes]
  have hsize : n.size = 4 + n.body.length := rfl
  have hinner : ¬(n.type = endType ∧ n.subType = endSubType) := h
  have hchars : (n.size - 4) / 2 = n.body.length / 2 := by omega
  rw [blessWalk, if_pos (by omega)]
  simp only [n.lengthField_bytes, n.getD_type, n.getD_subType, n.drop_size, n.drop_header, hchars,
    units_take, TaggedNode.is]
  rw [if_neg (by omega), if_neg hinner]
  rfl

theorem blessWalk_nodes {outCap : ℕ} {nodes : List TaggedNode}
    (inner : ∀ n ∈ nodes, ¬n.is endType endSubType) {fuel : ℕ} (hfuel : nodes.length < fuel)
    (rest : List UInt8) {out : List UInt16} (hout : out.length < outCap) :
    blessWalk outCap fuel (bytesOf nodes ++ endNode ++ rest) out =
      out ++ (textsOf mediaType filePathSubType nodes).take (outCap - 1 - out.length) := by
  induction nodes generalizing fuel out with
  | nil =>
      cases fuel with
      | zero => exact absurd hfuel (Nat.not_lt_zero _)
      | succ fuel =>
          simp [blessWalk, textsOf, endNode, endType, endSubType]
  | cons n nodes ih =>
      cases fuel with
      | zero => exact absurd hfuel (Nat.not_lt_zero _)
      | succ fuel =>
          have hrest := fun out hout => @ih (fun n hn => inner n (List.mem_cons_of_mem _ hn)) fuel
            (Nat.lt_of_succ_lt_succ hfuel) out hout
          rw [bytesOf_cons, List.append_assoc, List.append_assoc,
            blessWalk_inner (inner n List.mem_cons_self), ← List.append_assoc, textsOf_cons]
          split_ifs with hfile
          · rw [hrest _ (length_copyUnits_lt _ hout), copyUnits_eq _ hout, ← TaggedNode.text,
              take_texts]
          · rw [hrest _ hout, List.nil_append]

/-- Only the node of the file has a text. -/
theorem appleBlessGetPath_withFile {dp : DevicePath} (path : FileName)
    (h : ∀ n ∈ dp.nodes, ¬n.is mediaType filePathSubType) :
    appleBlessGetPath (some (dp.withFile path).bytes) fullPathCap = some path.chars := by
  have hnodes := @blessWalk_nodes fullPathCap _ (dp.withFile path).inner _
    (length_nodes_lt _ []) [] [] (show 0 < 512 by decide)
  have htexts : textsOf mediaType filePathSubType (dp.withFile path).nodes = path.chars := by
    unfold DevicePath.withFile
    rw [textsOf_append, textsOf_eq_nil h, textsOf_cons, if_pos ⟨rfl, rfl⟩, text_node]
    exact List.append_nil _
  have hfits : path.chars.length < 512 := path.fits
  rw [htexts, List.take_of_length_le (by rw [fullPathCap, List.length_nil]; omega),
    List.append_nil, List.append_nil, List.nil_append] at hnodes
  have hpos : 0 < path.chars.length := List.length_pos_iff.mpr path.nonempty
  have hlen : 4 ≤ (dp.withFile path).bytes.length := by
    rw [DevicePath.bytes, List.length_append]
    exact Nat.le_add_left 4 _
  unfold appleBlessGetPath
  rw [if_neg (by decide)]
  simp only [if_neg (not_lt.mpr hlen)]
  rw [← DevicePath.bytes] at hnodes
  rw [hnodes, if_pos hpos]

/-- The pool is the only thing which the builders of the shim and of the installer need. -/
def allocated (fw : Efi) (bytes : List UInt8) : EfiM Refusal (List UInt8) := do
  perform fw .allocatePool
  pure bytes

theorem buildFileDevicePath_eq {fw : Efi} {device : Handle} {dp : DevicePath}
    (h : Answers fw device dp) (path : FileName) :
    buildFileDevicePath fw device path.chars = allocated fw (dp.withFile path).bytes := by
  have hsize : path.node.size = 4 + (path.chars.length + 1) * 2 := by
    rw [TaggedNode.size, FileName.node, length_unitBytes, List.length_append,
      List.length_singleton]
    omega
  have hnode : [mediaType, filePathSubType] ++ encode 2 (4 + (path.chars.length + 1) * 2) ++
      unitBytes (path.chars ++ [0]) = path.node.bytes := by
    rw [TaggedNode.bytes, hsize]
    rfl
  unfold buildFileDevicePath allocated
  simp only [hnode]
  rw [hardwarePrefix_eq h, withFile_bytes]

theorem buildFullDevicePathOps_eq {fw : Efi} {device : Handle} {dp : DevicePath}
    (h : Answers fw device dp) {text : String} {path : FileName}
    (htext : charsOf text = path.chars) :
    buildFullDevicePathOps fw device text = allocated fw (dp.withFile path).bytes := by
  unfold buildFullDevicePathOps allocated
  rw [devicePrefix_eq, hardwarePrefix_eq h, filePathNode_eq htext, withFile_bytes]

/-- The path which the address entry program passes. -/
def shimName : FileName where
  chars := charsOf shimPath
  nonempty := by decide
  noNul := by decide
  fits := by decide

theorem shimDevicePath_eq {fw : Efi} {device : Handle} {dp : DevicePath}
    (h : Answers fw device dp) : shimDevicePath fw device =
      if 512 < (dp.withFile shimName).bytes.length then none
      else some (dp.withFile shimName).bytes := by
  have hnode : filePathNode shimPath = shimName.node.bytes := filePathNode_eq rfl
  have hlen : (dp.withFile shimName).bytes.length =
      (bytesOf dp.nodes).length + (4 + (shimPath.length + 1) * 2) + 4 := by
    rw [withFile_bytes, ← hnode, List.length_append, List.length_append]
    rfl
  unfold Answers hwDp at h
  unfold shimDevicePath
  rw [hlen, withFile_bytes, hnode]
  cases hdp : (fw.volumes.find? fun v => v.handle == device).bind Volume.devicePath with
  | none =>
      rw [hdp] at h
      have hnil : dp.nodes = [] := h
      rw [hnil]
      rfl
  | some bytes =>
      rw [hdp] at h
      obtain ⟨rest, rfl⟩ := h
      simp only [prefixLen_eq]

/-- For every device path the three programs build the same path of the file. The walk along
it ends with its length, and the walk for the blessed file gives the name of the file back. -/
theorem builders_agree (fw : Efi) (device : Handle) (dp : DevicePath) (h : Answers fw device dp) :
    (∀ path : FileName,
      buildFileDevicePath fw device path.chars = allocated fw (dp.withFile path).bytes) ∧
    (∀ (text : String) (path : FileName), charsOf text = path.chars →
      buildFullDevicePathOps fw device text = allocated fw (dp.withFile path).bytes) ∧
    (shimDevicePath fw device = if 512 < (dp.withFile shimName).bytes.length then none
      else some (dp.withFile shimName).bytes) ∧
    ∀ path : FileName,
      (dp.withFile path).bytes = bytesOf dp.nodes ++ path.node.bytes ++ endNode ∧
      (∀ fuel rest, (dp.withFile path).nodes.length < fuel →
        dpTotalLen fuel ((dp.withFile path).bytes ++ rest) = (dp.withFile path).bytes.length) ∧
      ((∀ n ∈ dp.nodes, ¬n.is mediaType filePathSubType) →
        appleBlessGetPath (some (dp.withFile path).bytes) fullPathCap = some path.chars) := by
  refine ⟨buildFileDevicePath_eq h, fun text path => buildFullDevicePathOps_eq h,
    shimDevicePath_eq h, fun path => ⟨withFile_bytes dp path, ?_, ?_⟩⟩
  · intro fuel rest hfuel
    exact dpTotalLen_bytes (dp.withFile path) hfuel rest
  · intro hfile
    exact appleBlessGetPath_withFile path hfile

/-- A device below a PCI node. -/
def pciPath : DevicePath where
  nodes := [⟨1, 1, [0, 0x1f], by decide⟩]
  inner := by decide

def pciDisk : Volume where
  handle := 2
  removableMedia := some false
  simpleFileSystem := efiSuccess
  openVolume := efiSuccess
  devicePath := some pciPath.bytes

theorem builders_agree_pci :
    shimDevicePath (plainEfi 2 [pciDisk]) 2 = some (pciPath.withFile shimName).bytes ∧
      dpTotalLen 3 (pciPath.withFile shimName).bytes = (pciPath.withFile shimName).bytes.length := by
  have h := builders_agree (plainEfi 2 [pciDisk]) 2 pciPath ⟨[], by decide⟩
  refine ⟨h.2.2.1.trans (if_neg (by decide)), ?_⟩
  have hwalk := (h.2.2.2 shimName).2.1 3 [] (by decide)
  rwa [List.append_nil] at hwalk

end BankFinder.DevicePaths
