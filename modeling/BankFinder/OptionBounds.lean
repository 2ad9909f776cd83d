import BankFinder.LoadOption

/-!
# The bounds of a load option

The content of a boot entry is whatever its writer stored. The scan of the shim for the
name of the file compares the position with the end of the list, but neither the header of
a node nor its text, as the walk along a blessed path does. So it leaves the variable on
some entries, and this says on which.
-/

namespace BankFinder.OptionBounds
open TaggedNodes DevicePaths LoadOption

/-- The copy of `chars` units into the room left in `fp` stays in the variable: it meets a
NUL, has all of them, or fills the room first. -/
def TextInside (chars room : ℕ) (left : List UInt16) : Prop :=
  0 ∈ left.take chars ∨ chars ≤ left.length ∨ room < left.length

instance (chars room : ℕ) (left : List UInt16) : Decidable (TextInside chars room left) :=
  inferInstanceAs (Decidable (_ ∨ _ ∨ _))

theorem textInside_zero (room : ℕ) (left : List UInt16) : TextInside 0 room left :=
  Or.inr (Or.inl (Nat.zero_le _))

theorem textInside_cons {c : UInt16} (hc : c ≠ 0) (chars room : ℕ) (left : List UInt16) :
    TextInside (chars + 1) (room + 1) (c :: left) ↔ TextInside chars room left := by
  have hnul : 0 ∈ (c :: left).take (chars + 1) ↔ 0 ∈ left.take chars := by
    rw [List.take_succ_cons, List.mem_cons]
    exact or_iff_right (Ne.symm hc)
  unfold TextInside
  rw [hnul, List.length_cons, Nat.succ_le_succ_iff, Nat.succ_lt_succ_iff]

theorem copyChars_eq {us : List UInt16} {chars k : ℕ} {left fp : List UInt16}
    (h : us.drop k = left) (hfp : fp.length < fpCap) :
    copyChars (fetch us) chars k fp =
      if TextInside chars (fpCap - 1 - fp.length) left then
        .ok (fp ++ (textOf (left.take chars)).take (fpCap - 1 - fp.length))
      else .error .read := by
  induction chars generalizing k left fp with
  | zero =>
      rw [copyChars, if_pos (textInside_zero _ _)]
      simp
  | succ chars ih =>
      cases left with
      | nil =>
          rw [copyChars, fetch_of_drop_nil h, error_bind, if_neg]
          simp [TextInside]
      | cons c left =>
          rw [copyChars, fetch_of_drop h, ok_bind]
          by_cases hc : c ≠ 0 ∧ fp.length + 1 < fpCap
          · have hlen : (fp ++ [c]).length = fp.length + 1 := by
              rw [List.length_append, List.length_singleton]
            have hroom : fpCap - 1 - fp.length = (fpCap - 1 - (fp ++ [c]).length) + 1 := by omega
            have hstore : store fp c = .ok (fp ++ [c]) := if_pos hfp
            rw [if_pos hc, hstore, ok_bind, ih (drop_next h) (by omega), hroom,
              List.take_succ_cons, textOf_cons hc.1, List.take_succ_cons, List.append_assoc]
            simp only [textInside_cons hc.1, List.singleton_append]
          · have hstop : TextInside (chars + 1) (fpCap - 1 - fp.length) (c :: left) ∧
                (textOf ((c :: left).take (chars + 1))).take (fpCap - 1 - fp.length) = [] := by
              rcases not_and_or.mp hc with hzero | hfull
              · rw [not_not.mp hzero, List.take_succ_cons, textOf_zero, List.take_nil]
                exact ⟨Or.inl (by rw [List.take_succ_cons]; exact List.mem_cons_self), rfl⟩
              · rw [show fpCap - 1 - fp.length = 0 by omega, List.take_zero]
                exact ⟨Or.inr (Or.inr (Nat.succ_pos _)), rfl⟩
            rw [if_neg hc, if_pos hstop.1, hstop.2, List.append_nil]
            rfl

theorem length_copied_lt {us fp : List UInt16} (hfp : fp.length < fpCap) :
    (fp ++ us.take (fpCap - 1 - fp.length)).length < fpCap := by
  rw [List.length_append, List.length_take]
  omega

/-- The units of the text in the node at the beginning of `bytes`, as many of them as are
there. -/
def nodeText (bytes : List UInt8) : List UInt16 :=
  textOf ((units (bytes.drop 4)).take ((lengthField bytes - 4) / 2))

def isFilePath (bytes : List UInt8) : Prop :=
  bytes.getD 0 0 = mediaType ∧ bytes.getD 1 0 = filePathSubType

/-- The walk stops at an end node and at a length which no node has. -/
def Stops (bytes : List UInt8) : Prop :=
  lengthField bytes < 4 ∨ bytes.getD 0 0 = endType ∧ bytes.getD 1 0 = endSubType

instance (bytes : List UInt8) : Decidable (isFilePath bytes) :=
  inferInstanceAs (Decidable (_ ∧ _))

instance (bytes : List UInt8) : Decidable (Stops bytes) :=
  inferInstanceAs (Decidable (_ ∨ _))

/-- The room in `fp` behind the node. -/
def roomAfter (room : ℕ) (bytes : List UInt8) : ℕ :=
  if isFilePath bytes then room - (nodeText bytes).length else room

/-- A list of `len` bytes can be walked along within `bytes`, which is what the variable
holds from its beginning on: every header which the list leads to is there, and so is as
much of each text as the room asks for. -/
inductive ListInside : ℕ → ℕ → List UInt8 → Prop
  | done (room : ℕ) (bytes : List UInt8) : ListInside 0 room bytes
  | stop (len room : ℕ) (bytes : List UInt8) (header : 4 ≤ bytes.length) (h : Stops bytes) :
      ListInside len room bytes
  | node (len room : ℕ) (bytes : List UInt8) (header : 4 ≤ bytes.length) (h : ¬Stops bytes)
      (text : isFilePath bytes →
        TextInside ((lengthField bytes - 4) / 2) room (units (bytes.drop 4)))
      (rest : ListInside (len - lengthField bytes) (roomAfter room bytes)
        (bytes.drop (lengthField bytes))) :
      ListInside len room bytes

theorem listInside_pos {len room : ℕ} {bytes : List UInt8} (hlen : 0 < len) :
    ListInside len room bytes ↔ 4 ≤ bytes.length ∧ (Stops bytes ∨
      (isFilePath bytes →
        TextInside ((lengthField bytes - 4) / 2) room (units (bytes.drop 4))) ∧
      ListInside (len - lengthField bytes) (roomAfter room bytes)
        (bytes.drop (lengthField bytes))) := by
  constructor
  · intro h
    cases h with
    | done => exact absurd hlen (Nat.lt_irrefl 0)
    | stop _ _ _ header h => exact ⟨header, Or.inl h⟩
    | node _ _ _ header h text rest => exact ⟨header, Or.inr ⟨text, rest⟩⟩
  · rintro ⟨header, h⟩
    by_cases hstop : Stops bytes
    · exact .stop len room bytes header hstop
    · obtain ⟨text, rest⟩ := h.resolve_left hstop
      exact .node len room bytes header hstop text rest

section
variable {data : List UInt8} {dpe dpp fuel : ℕ} {fp : List UInt16}

theorem walkList_short (hdpp : dpp < dpe) (hshort : (data.drop dpp).length < 4) :
    walkList data dpe (fuel + 1) dpp fp = .error .read := by
  have hfetch (i : ℕ) : fetch data (dpp + i) = fetch (data.drop dpp) i := (fetch_drop data dpp i).symm
  have h0 := hfetch 0
  rw [Nat.add_zero] at h0
  rw [walkList, if_pos hdpp, h0, hfetch 1, hfetch 2, hfetch 3]
  match hleft : data.drop dpp with
  | [] | [_] | [_, _] | [_, _, _] => rfl
  | _ :: _ :: _ :: _ :: _ =>
      rw [hleft] at hshort
      simp only [List.length_cons] at hshort
      omega

theorem walkList_step (hdpp : dpp < dpe) (hheader : 4 ≤ (data.drop dpp).length) :
    walkList data dpe (fuel + 1) dpp fp =
      if Stops (data.drop dpp) then .ok fp
      else
        (if isFilePath (data.drop dpp) then
            copyChars (fetch (units ((data.drop dpp).drop 4)))
              ((lengthField (data.drop dpp) - 4) / 2) 0 fp
          else .ok fp) >>= fun fp =>
        walkList data dpe fuel (dpp + lengthField (data.drop dpp)) fp := by
  have hfetch (i : ℕ) (hi : i < 4) : fetch data (dpp + i) = .ok ((data.drop dpp).getD i 0) := by
    have hlt : i < (data.drop dpp).length := by omega
    rw [← fetch_drop, List.getD_eq_getElem _ 0 hlt]
    exact fetch_of_getElem? (List.getElem?_eq_getElem hlt)
  have h0 := hfetch 0 (by decide)
  have hsrc : (fun k => unitAt data (dpp + 4 + 2 * k)) =
      fetch (units ((data.drop dpp).drop 4)) := by
    funext k
    rw [unitAt_eq, List.drop_drop]
  rw [Nat.add_zero] at h0
  rw [walkList, if_pos hdpp, h0, hfetch 1 (by decide), hfetch 2 (by decide),
    hfetch 3 (by decide), hsrc]
  simp only [ok_bind]
  rw [← lengthField]
  by_cases hshort : lengthField (data.drop dpp) < 4
  · have hstop : Stops (data.drop dpp) := Or.inl hshort
    rw [if_pos hshort, if_pos hstop]
    rfl
  · by_cases hend : (data.drop dpp).getD 0 0 = endType ∧ (data.drop dpp).getD 1 0 = endSubType
    · have hstop : Stops (data.drop dpp) := Or.inr hend
      rw [if_neg hshort, if_pos hend, if_pos hstop]
      rfl
    · have hstop : ¬Stops (data.drop dpp) := not_or.mpr ⟨hshort, hend⟩
      rw [if_neg hshort, if_neg hend, if_neg hstop]
      by_cases hfile : isFilePath (data.drop dpp)
      · rw [if_pos hfile]
        exact if_pos hfile
      · rw [if_neg hfile]
        exact if_neg hfile

/-- The next node is read, its text too if it is a path. -/
theorem readNode_cases (hfp : fp.length < fpCap) (left : List UInt8) :
    let room := fpCap - 1 - fp.length
    let chars := (lengthField left - 4) / 2
    let read : Access (List UInt16) :=
      if isFilePath left then copyChars (fetch (units (left.drop 4))) chars 0 fp else .ok fp
    ((isFilePath left → TextInside chars room (units (left.drop 4))) ∧
      ∃ fp', read = .ok fp' ∧ fp'.length < fpCap ∧ fpCap - 1 - fp'.length = roomAfter room left) ∨
    (isFilePath left ∧ ¬TextInside chars room (units (left.drop 4)) ∧ read = .error .read) := by
  intro room chars read
  by_cases hfile : isFilePath left
  · have hread : read = copyChars (fetch (units (left.drop 4))) chars 0 fp := if_pos hfile
    have hcopy := @copyChars_eq (units (left.drop 4)) chars 0 _ fp List.drop_zero hfp
    by_cases htext : TextInside chars room (units (left.drop 4))
    · rw [if_pos htext] at hcopy
      refine Or.inl ⟨fun _ => htext, _, hread.trans hcopy, length_copied_lt hfp, ?_⟩
      have htext : nodeText left = textOf ((units (left.drop 4)).take chars) := rfl
      have hroom : room = fpCap - 1 - fp.length := rfl
      rw [roomAfter, if_pos hfile, htext, List.length_append, List.length_take]
      omega
    · rw [if_neg htext] at hcopy
      exact Or.inr ⟨hfile, htext, hread.trans hcopy⟩
  · have hread : read = .ok fp := if_neg hfile
    have hroom : roomAfter room left = room := if_neg hfile
    exact Or.inl ⟨fun h => absurd h hfile, fp, hread, hfp, hroom.symm⟩

theorem walkList_cases (hfp : fp.length < fpCap) (hfuel : dpe - dpp ≤ fuel) :
    (ListInside (dpe - dpp) (fpCap - 1 - fp.length) (data.drop dpp) ∧
      ∃ fp', walkList data dpe fuel dpp fp = .ok fp' ∧ fp'.length < fpCap) ∨
    (¬ListInside (dpe - dpp) (fpCap - 1 - fp.length) (data.drop dpp) ∧
      walkList data dpe fuel dpp fp = .error .read) := by
  induction fuel generalizing dpp fp with
  | zero =>
      rw [Nat.le_zero.mp hfuel]
      exact Or.inl ⟨.done _ _, fp, rfl, hfp⟩
  | succ fuel ih =>
      by_cases hdpp : dpp < dpe
      · have hinside := @listInside_pos (dpe - dpp) (fpCap - 1 - fp.length) (data.drop dpp)
          (Nat.sub_pos_of_lt hdpp)
        rw [hinside]
        by_cases hheader : 4 ≤ (data.drop dpp).length
        · rw [walkList_step hdpp hheader]
          by_cases hstop : Stops (data.drop dpp)
          · rw [if_pos hstop]
            exact Or.inl ⟨⟨hheader, Or.inl hstop⟩, fp, rfl, hfp⟩
          rw [if_neg hstop]
          rcases readNode_cases hfp (data.drop dpp) with
            ⟨htext, fp', hread, hfp', hroom⟩ | ⟨hfile, htext, hread⟩
          · have hnext := @ih (dpp + lengthField (data.drop dpp)) fp' hfp' (by
              unfold Stops at hstop
              omega)
            rw [hroom, ← List.drop_drop, Nat.sub_add_eq] at hnext
            rw [hread, ok_bind]
            rcases hnext with ⟨hrest, hrun⟩ | ⟨hrest, hrun⟩
            · exact Or.inl ⟨⟨hheader, Or.inr ⟨htext, hrest⟩⟩, hrun⟩
            · exact Or.inr ⟨fun h => hrest (h.2.resolve_left hstop).2, hrun⟩
          · rw [hread, error_bind]
            exact Or.inr ⟨fun h => htext ((h.2.resolve_left hstop).1 hfile), rfl⟩
        · exact Or.inr ⟨fun h => hheader h.1, walkList_short hdpp (not_le.mp hheader)⟩
      · rw [Nat.sub_eq_zero_of_le (not_lt.mp hdpp)]
        exact Or.inl ⟨.done _ _, fp, if_neg hdpp, hfp⟩

end

theorem filePath_cases (data : List UInt8) (h : Header) :
    (ListInside h.fplLen (fpCap - 1) (data.drop h.dp) ∧ ∃ fp, filePath data h = .ok fp) ∨
    (¬ListInside h.fplLen (fpCap - 1) (data.drop h.dp) ∧ filePath data h = .error .read) := by
  have hlen : h.dp + h.fplLen - h.dp = h.fplLen := Nat.add_sub_cancel_left _ _
  have hwalk := @walkList_cases data (h.dp + h.fplLen) h.dp h.fplLen [] (by decide) hlen.le
  rw [hlen] at hwalk
  unfold filePath
  rcases hwalk with ⟨hinside, fp, hrun, hfp⟩ | ⟨hinside, hrun⟩
  · exact Or.inl ⟨hinside, fp, by rw [hrun, ok_bind]; exact if_pos hfp⟩
  · exact Or.inr ⟨hinside, by rw [hrun]; rfl⟩

theorem not_stops {n : TaggedNode} (h : ¬n.is endType endSubType) (rest : List UInt8) :
    ¬Stops (n.bytes ++ rest) := by
  rintro (hshort | hend)
  · rw [n.lengthField_bytes, TaggedNode.size] at hshort
    omega
  · exact h hend

theorem walkList_inner {data rest : List UInt8} {dpe dpp fuel : ℕ} {n : TaggedNode}
    (h : ¬n.is endType endSubType) {fp : List UInt16} (hfp : fp.length < fpCap)
    (hdrop : data.drop dpp = n.bytes ++ rest) (hdpp : dpp < dpe) :
    walkList data dpe (fuel + 1) dpp fp = walkList data dpe fuel (dpp + n.size)
      (if n.is mediaType filePathSubType then fp ++ n.text.take (fpCap - 1 - fp.length)
        else fp) := by
  have hsize : n.size = 4 + n.body.length := rfl
  have hheader : 4 ≤ (data.drop dpp).length := by
    rw [hdrop, List.length_append, n.length_bytes]
    omega
  have hstop : ¬Stops (data.drop dpp) := by
    rw [hdrop]
    exact not_stops h rest
  rw [walkList_step hdpp hheader, if_neg hstop, hdrop, n.lengthField_bytes, n.drop_header]
  by_cases hfile : n.is mediaType filePathSubType
  · have hchars : (n.size - 4) / 2 = n.body.length / 2 := by omega
    have hinside : TextInside (n.body.length / 2) (fpCap - 1 - fp.length)
        (units (n.body ++ rest)) := by
      refine Or.inr (Or.inl ?_)
      rw [length_units, List.length_append]
      omega
    have hpath : isFilePath (n.bytes ++ rest) := hfile
    rw [if_pos hpath, if_pos hfile, hchars, copyChars_eq List.drop_zero hfp, if_pos hinside,
      ok_bind, units_take, TaggedNode.text]
  · have hpath : ¬isFilePath (n.bytes ++ rest) := hfile
    rw [if_neg hpath, if_neg hfile, ok_bind]

theorem walkList_nodes {data rest : List UInt8} {dpe : ℕ} {nodes : List TaggedNode}
    (inner : ∀ n ∈ nodes, ¬n.is endType endSubType) {dpp fuel : ℕ} {fp : List UInt16}
    (hfp : fp.length < fpCap) (hdrop : data.drop dpp = bytesOf nodes ++ MaskOps.endNode ++ rest)
    (hdpe : dpp + (bytesOf nodes).length < dpe) (hfuel : nodes.length < fuel) :
    walkList data dpe fuel dpp fp = .ok (fp ++
      (textsOf mediaType filePathSubType nodes).take (fpCap - 1 - fp.length)) := by
  induction nodes generalizing dpp fuel fp with
  | nil =>
      cases fuel with
      | zero => exact absurd hfuel (Nat.not_lt_zero _)
      | succ fuel =>
          have hheader : 4 ≤ (data.drop dpp).length := by
            rw [hdrop, bytesOf_nil, List.nil_append, List.length_append]
            exact Nat.le_add_right 4 _
          have hstop : Stops (data.drop dpp) := by
            rw [hdrop]
            exact Or.inr ⟨rfl, rfl⟩
          rw [walkList_step (by rw [bytesOf_nil] at hdpe; exact hdpe) hheader, if_pos hstop]
          simp [textsOf]
  | cons n nodes ih =>
      cases fuel with
      | zero => exact absurd hfuel (Nat.not_lt_zero _)
      | succ fuel =>
          have hleft : data.drop dpp = n.bytes ++ (bytesOf nodes ++ MaskOps.endNode ++ rest) := by
            rw [hdrop, bytesOf_cons]
            simp only [List.append_assoc]
          have hnext : data.drop (dpp + n.size) = bytesOf nodes ++ MaskOps.endNode ++ rest := by
            rw [← List.drop_drop, hleft, n.drop_size]
          rw [bytesOf_cons, List.length_append, n.length_bytes] at hdpe
          have hrest (fp' : List UInt16) (hfp' : fp'.length < fpCap) :=
            @ih (fun m hm => inner m (List.mem_cons_of_mem _ hm)) (dpp + n.size) fuel fp' hfp'
              hnext (by omega) (Nat.lt_of_succ_lt_succ hfuel)
          rw [walkList_inner (inner n List.mem_cons_self) hfp hleft (by omega), textsOf_cons]
          split_ifs with hfile
          · rw [hrest _ (length_copied_lt hfp), take_texts]
          · rw [hrest fp hfp, List.nil_append]

/-- Complete nodes and an end node. -/
def WellFormed (list : List UInt8) : Prop :=
  ∃ (dp : DevicePath) (rest : List UInt8), list = dp.bytes ++ rest

/-- The path which `apple_bless_get_path` takes out of the same bytes. -/
def blessedPath (list : List UInt8) : List UInt16 :=
  (appleBlessGetPath (some list) fullPathCap).getD []

theorem blessedPath_eq (dp : DevicePath) (rest : List UInt8) :
    blessedPath (dp.bytes ++ rest) =
      (textsOf mediaType filePathSubType dp.nodes).take (fullPathCap - 1) := by
  have hwalk := @blessWalk_nodes fullPathCap _ dp.inner _ (length_nodes_lt dp rest) rest []
    (show 0 < 512 by decide)
  rw [List.nil_append, List.length_nil, Nat.sub_zero] at hwalk
  have hlen : ¬(dp.bytes ++ rest).length < 4 := by
    rw [DevicePath.bytes, List.length_append, List.length_append]
    have hend : MaskOps.endNode.length = 4 := rfl
    omega
  rw [← DevicePath.bytes] at hwalk
  unfold blessedPath appleBlessGetPath
  rw [if_neg (by decide)]
  simp only [if_neg hlen, hwalk]
  split_ifs with hpos
  · rfl
  · rw [List.length_pos_iff, not_not] at hpos
    rw [hpos, Option.getD_none]

/-- On a well-formed list the two walks of the shim differ in their capacity only. -/
theorem filePath_wellFormed {data : List UInt8} {h : Header}
    (hlist : WellFormed (pathList data h)) :
    filePath data h = .ok ((blessedPath (pathList data h)).take (fpCap - 1)) := by
  obtain ⟨dp, rest, hbytes⟩ := hlist
  have hdrop : data.drop h.dp =
      bytesOf dp.nodes ++ MaskOps.endNode ++ (rest ++ (data.drop h.dp).drop h.fplLen) := by
    rw [← DevicePath.bytes, ← List.append_assoc, ← hbytes, pathList, List.take_append_drop]
  have hlen : dp.bytes.length ≤ h.fplLen := by
    have hle := congrArg List.length hbytes
    rw [pathList, List.length_take, List.length_append] at hle
    omega
  have hbytesLen : dp.bytes.length = (bytesOf dp.nodes).length + 4 := List.length_append
  have hnodes := length_nodes_lt dp []
  rw [List.append_nil] at hnodes
  have hwalk := @walkList_nodes data _ (h.dp + h.fplLen) dp.nodes dp.inner h.dp h.fplLen []
    (by decide) hdrop (by omega) (by omega)
  rw [List.nil_append, List.length_nil, Nat.sub_zero] at hwalk
  have hshort : ((textsOf mediaType filePathSubType dp.nodes).take (fpCap - 1)).length < fpCap := by
    rw [List.length_take]
    exact lt_of_le_of_lt (Nat.min_le_left _ _) (by decide)
  unfold filePath
  rw [hwalk, ok_bind, hbytes, blessedPath_eq, List.take_take]
  exact if_pos hshort

/-- Either the entry is passed over for its description or its length, or its list can be
walked along. A description without a NUL is read beyond the variable unless its length or
an early `USB` ends the search. -/
def Inside (data : List UInt8) : Prop :=
  (0 ∈ descUnits data → data.length < listStart data + listLength data ∨
    NamesUsb (descText data) ∨ NamesSelf (descText data) ∨
    ListInside (listLength data) (fpCap - 1) (data.drop (listStart data))) ∧
  (0 ∉ descUnits data → data.length % 2 = 1 ∨ listLength data ≠ 0 ∨
    NamesUsb (descUnits data).dropLast)

theorem parseOption_cases {data : List UInt8} (h : 8 ≤ data.length) :
    (Inside data ∧ ∃ v, parseOption data = .ok v) ∨
      (¬Inside data ∧ parseOption data = .error .read) := by
  unfold Inside
  by_cases hnul : 0 ∈ descUnits data
  · rw [parseOption_terminated h hnul]
    split_ifs with hlen husb hself
    · exact Or.inl ⟨⟨fun _ => Or.inl hlen, fun hopen => absurd hnul hopen⟩, _, rfl⟩
    · exact Or.inl ⟨⟨fun _ => Or.inr (Or.inl husb), fun hopen => absurd hnul hopen⟩, _, rfl⟩
    · exact Or.inl
        ⟨⟨fun _ => Or.inr (Or.inr (Or.inl hself)), fun hopen => absurd hnul hopen⟩, _, rfl⟩
    · rcases filePath_cases data ⟨listStart data, listLength data⟩ with
        ⟨hinside, fp, hrun⟩ | ⟨hinside, hrun⟩
      · refine Or.inl ⟨⟨fun _ => Or.inr (Or.inr (Or.inr hinside)),
          fun hopen => absurd hnul hopen⟩, verdictOf fp, ?_⟩
        rw [hrun]
        rfl
      · refine Or.inr ⟨fun hin => ?_, by rw [hrun]; rfl⟩
        rcases hin.1 hnul with hin | hin | hin | hin
        · exact hlen hin
        · exact husb hin
        · exact hself hin
        · exact hinside hin
  · rw [parseOption_open h hnul]
    split_ifs with hlist husb
    · refine Or.inl ⟨⟨fun hmem => absurd hmem hnul, fun _ => ?_⟩, _, rfl⟩
      rcases hlist with hodd | hlist
      · exact Or.inl hodd
      · exact Or.inr (Or.inl hlist)
    · exact Or.inl ⟨⟨fun hmem => absurd hmem hnul, fun _ => Or.inr (Or.inr husb)⟩, _, rfl⟩
    · refine Or.inr ⟨fun hin => ?_, rfl⟩
      rcases hin.2 hnul with hin | hin | hin
      · exact hlist (Or.inl hin)
      · exact hlist (Or.inr hin)
      · exact husb hin

/-- What is asked of the parser: an entry is parsed without a read or a write out of bounds,
and of a well-formed list it takes the path which is taken of a blessed one, cut at the
capacity. -/
structure Parses (data : List UInt8) : Prop where
  inBounds : ∃ v, parseOption data = .ok v
  samePath : ∀ h, parseHeader data = .ok (some h) → WellFormed (pathList data h) →
    filePath data h = .ok ((blessedPath (pathList data h)).take (fpCap - 1))

/-- The parser never writes behind `fp`, and it meets its specification exactly when
everything it looks for is inside the variable. -/
theorem parses_iff (data : List UInt8) (h : 8 ≤ data.length) :
    parseOption data ≠ .error .write ∧ (Parses data ↔ Inside data) := by
  rcases parseOption_cases h with ⟨hinside, v, hrun⟩ | ⟨hinside, hrun⟩
  · refine ⟨by rw [hrun]; simp, iff_of_true ⟨⟨v, hrun⟩, ?_⟩ hinside⟩
    intro hd _ hlist
    exact filePath_wellFormed hlist
  · refine ⟨by rw [hrun]; simp, iff_of_false ?_ hinside⟩
    rintro ⟨⟨v, hok⟩, -⟩
    rw [hrun] at hok
    exact absurd hok (by simp)

/-- The description `A`, a file path node with the text `\B` and the end node. -/
def fileOption : List UInt8 :=
  [1, 0, 0, 0, 14, 0, 0x41, 0, 0, 0, 4, 4, 10, 0, 0x5c, 0, 0x42, 0, 0, 0, 0x7f, 0xff, 4, 0]

theorem parses_fileOption : Parses fileOption := by
  apply (parses_iff fileOption (by decide)).2.mpr
  constructor
  · intro _
    have hend : ListInside 4 (fpCap - 3) [0x7f, 0xff, 4, 0] :=
      .stop _ _ _ (by decide) (by decide)
    have hfile : ListInside (listLength fileOption) (fpCap - 1)
        (fileOption.drop (listStart fileOption)) :=
      .node _ _ _ (by decide) (by decide) (fun _ => by decide) hend
    exact Or.inr (Or.inr (Or.inr hfile))
  · intro hopen
    exact absurd (show 0 ∈ descUnits fileOption by decide) hopen

/-- The description `A` and a list of 6 bytes: a file path node of 0x20 bytes of which the
variable holds the first 6. -/
def truncatedOption : List UInt8 :=
  [1, 0, 0, 0, 6, 0, 0x41, 0, 0, 0, 4, 4, 0x20, 0, 0x5c, 0]

/-- The text of the node is read beyond the variable. -/
theorem truncated_node_overread :
    8 ≤ truncatedOption.length ∧ truncatedOption.length ≤ 4096 ∧
      parseOption truncatedOption = .error .read ∧ ¬Parses truncatedOption := by
  have hrun : parseOption truncatedOption = .error .read := by decide
  refine ⟨by decide, by decide, hrun, ?_⟩
  rintro ⟨⟨v, hok⟩, -⟩
  rw [hrun] at hok
  exact absurd hok (by simp)

end BankFinder.OptionBounds
