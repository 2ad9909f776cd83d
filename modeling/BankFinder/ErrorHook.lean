import BankFinder.BadmemLog
import BankFinder.BoardTopology
import BankFinder.PageDecode

/-!
# From error reports to rows and chips

Errors are reported by address while a test runs; the page log keeps their pages.
At the end of the pass `board_decode_pass` decodes the logged pages, not the
reported addresses, and records the row tuple and the suspect chips of each.
-/

namespace BankFinder.ErrorHook
open BootSession CflSkl PageDecode CappedLog BoardTopology BadmemLog

/-- The second argument of the hook is not used. -/
def boardReportError (log : Log) (addr : UInt64) : Log := badmemLogRecord log addr

def channelRanks (mc : Option McConfig) (chIdx : UInt8) : UInt8 :=
  match mc with
  | none => 1
  | some mc =>
      if chIdx > 1 then 1
      else
        let m := (mc.channel chIdx).dimms.foldl
          (fun m dd => if !dd.populated then m else if dd.ranks > m then dd.ranks else m) 0
        if m ≠ 0 then m else 1

/-- The loop `for (r = rank_lo; r <= rank_hi; r++)`. -/
def rankRange (pa : PaDecoded) (ranks : UInt8) : List UInt8 :=
  if pa.rankValid then [pa.rank]
  else if ranks > 1 then (List.range ranks.toNat).map UInt8.ofNat
  else [0]

/-- What `board_lookup` returns for each rank and byte lane of the decoded channel. -/
def packagesOf (p : BoardProfile) (pa : PaDecoded) (ranks : UInt8) : List BoardPackage :=
  (rankRange pa ranks).flatMap fun r =>
    (List.range 8).filterMap fun lane => boardLookup p pa.channel r (UInt8.ofNat lane)

/-- `seen[]` and the log; a name which was seen before is not recorded again. The source compares
the pointers to the names, which stand in one file where equal literals are kept once. -/
structure Suspects where
  seen : List (List UInt8)
  log : Log

def Suspects.add (s : Suspects) (pk : BoardPackage) : Suspects :=
  if pk.designator ∈ s.seen then s
  else
    { seen := if s.seen.length < boardMaxPackages then s.seen ++ [pk.designator] else s.seen
      log := badmemLogRecordChip s.log pk.designator }

/-- The summary of one bad page. -/
structure PageReport where
  addr : UInt64
  lookedUp : List BoardPackage
  seen : List (List UInt8)
  deriving DecidableEq, Repr

structure Decoded where
  report : PageReport
  log : Log

def rowTuple (pa : PaDecoded) : BadRow := ⟨pa.channel, pa.rank, pa.bankGroup, pa.bank, pa.row⟩

def decodeAndLogOne (host : McHost) (board : Option BoardProfile) (log : Log) (addr : UInt64) :
    Decoded :=
  let pa := imcDecodePa host addr
  if !pa.valid then ⟨⟨addr, [], []⟩, log⟩
  else
    let log := if pa.bankRowValid then badmemLogRecordRow log (rowTuple pa) else log
    match board with
    | none => ⟨⟨addr, [], []⟩, log⟩
    | some p =>
        let lookedUp := packagesOf p pa (channelRanks (imcConfig host) pa.channel)
        let s := lookedUp.foldl Suspects.add ⟨[], log⟩
        ⟨⟨addr, lookedUp, s.seen⟩, s.log⟩

structure PassResult where
  reports : List PageReport
  log : Log

def PassResult.step (host : McHost) (board : Option BoardProfile) (r : PassResult)
    (addr : UInt64) : PassResult :=
  let d := decodeAndLogOne host board r.log addr
  ⟨r.reports ++ [d.report], d.log⟩

def boardDecodePass (host : McHost) (board : Option BoardProfile) (log : Log) : PassResult :=
  log.pages.foldl (PassResult.step host board) ⟨[], log⟩

section
variable (host : McHost) (board : Option BoardProfile)

theorem foldl_add_rows (s : Suspects) (pks : List BoardPackage) :
    (pks.foldl Suspects.add s).log.rows = s.log.rows := by
  induction pks generalizing s with
  | nil => rfl
  | cons pk pks ih =>
      rw [List.foldl_cons, ih]
      unfold Suspects.add
      by_cases hseen : pk.designator ∈ s.seen
      · rw [if_pos hseen]
      · rw [if_neg hseen]
        exact badmemLogRecordChip_rows s.log pk.designator

theorem decodePa_bankRowValid {addr : UInt64} (h : (imcDecodePa host addr).valid = true) :
    (imcDecodePa host addr).bankRowValid = true := by
  rw [imcDecodePa_eq] at h ⊢
  cases hconfig : imcConfig host with
  | none =>
      rw [hconfig] at h
      exact absurd h Bool.false_ne_true
  | some mc => rfl

theorem decodeAndLogOne_rows (log : Log) {addr : UInt64}
    (h : (imcDecodePa host addr).valid = true) :
    (decodeAndLogOne host board log addr).log.rows =
      record maxBadRows log.rows (rowTuple (imcDecodePa host addr)) := by
  unfold decodeAndLogOne
  simp only [h, decodePa_bankRowValid host h]
  cases board with
  | none => rfl
  | some p =>
      change (List.foldl Suspects.add _ _).log.rows = _
      rw [foldl_add_rows]
      rfl

theorem decodeAndLogOne_report (p : BoardProfile) (log : Log) {addr : UInt64}
    (h : (imcDecodePa host addr).valid = true) :
    (decodeAndLogOne host (some p) log addr).report.lookedUp =
      packagesOf p (imcDecodePa host addr)
        (channelRanks (imcConfig host) (imcDecodePa host addr).channel) := by
  unfold decodeAndLogOne
  simp only [h]
  rfl

theorem decodeAndLogOne_addr (log : Log) (addr : UInt64) :
    (decodeAndLogOne host board log addr).report.addr = addr := by
  unfold decodeAndLogOne
  cases board with
  | none =>
      simp only
      split_ifs <;> rfl
  | some p =>
      simp only
      split_ifs <;> rfl

theorem foldl_step_rows (hvalid : ∀ a, (imcDecodePa host a).valid = true) (pages : List UInt64)
    (r : PassResult) : (pages.foldl (PassResult.step host board) r).log.rows =
      recordAll maxBadRows r.log.rows (pages.map fun a => rowTuple (imcDecodePa host a)) := by
  induction pages generalizing r with
  | nil => rfl
  | cons a pages ih =>
      have hrows := decodeAndLogOne_rows host board r.log (hvalid a)
      rw [List.foldl_cons, ih, List.map_cons]
      unfold PassResult.step
      simp only [hrows]
      rfl

theorem foldl_step_keeps (pages : List UInt64) (r : PassResult) {report : PageReport}
    (h : report ∈ r.reports) : report ∈ (pages.foldl (PassResult.step host board) r).reports := by
  induction pages generalizing r with
  | nil => exact h
  | cons a pages ih => exact ih (r.step host board a) (List.mem_append_left _ h)

/-- The packages which belong to the channel and rank of an address. -/
def suspectsAt (p : BoardProfile) (a : UInt64) : List BoardPackage :=
  packagesOf p (imcDecodePa host a) (channelRanks (imcConfig host) (imcDecodePa host a).channel)

theorem foldl_step_reports (hvalid : ∀ a, (imcDecodePa host a).valid = true)
    (pages : List UInt64) (r : PassResult) : ∀ page ∈ pages,
      ∃ report ∈ (pages.foldl (PassResult.step host board) r).reports,
        report.addr = page ∧ ∀ p ∈ board, report.lookedUp = suspectsAt host p page := by
  induction pages generalizing r with
  | nil => simp
  | cons a pages ih =>
      intro page hpage
      rcases List.mem_cons.mp hpage with rfl | hpage
      · refine ⟨(decodeAndLogOne host board r.log page).report, ?_,
          decodeAndLogOne_addr host board r.log page, ?_⟩
        · exact foldl_step_keeps host board pages _ (List.mem_append_right _ List.mem_cons_self)
        · intro p hp
          cases hp
          exact decodeAndLogOne_report host p r.log (hvalid page)
      · exact ih (r.step host board a) page hpage

/-- Reports during a test and the pass which ends it, from empty accumulators. -/
def runPass (reports : List UInt64) : PassResult :=
  boardDecodePass host board (reports.foldl boardReportError {})

theorem runPass_pages (reports : List UInt64) :
    (reports.foldl boardReportError {}).pages =
      recordAll maxEntries [] (reports.map pageAlign) :=
  foldl_badmemLogRecord_pages {} reports

theorem runPass_rows (hvalid : ∀ a, (imcDecodePa host a).valid = true) (reports : List UInt64) :
    (runPass host board reports).log.rows =
      recordAll maxBadRows [] ((recordAll maxEntries [] (reports.map pageAlign)).map fun a =>
        rowTuple (imcDecodePa host a)) := by
  have hrows : (reports.foldl boardReportError {}).rows = [] :=
    foldl_badmemLogRecord_rows {} reports
  rw [runPass, boardDecodePass, foldl_step_rows host board hvalid, runPass_pages, hrows]

/-- One reported address is traced to its own row and to the chips of its own channel. -/
structure Attributed (result : PassResult) (a : UInt64) : Prop where
  row : result.log.rows.length < maxBadRows →
    rowTuple (imcDecodePa host a) ∈ result.log.rows
  chips : ∃ report ∈ result.reports, report.addr = pageAlign a ∧
    ∀ p ∈ board, report.lookedUp = suspectsAt host p a

def AttributesErrors (reports : List UInt64) : Prop :=
  ∀ a ∈ reports, (imcDecodePa host a).valid = true →
    Attributed host board (runPass host board reports) a

end

section
variable {host : McHost} {mc : McConfig}

theorem imcDecodePa_valid (hmc : imcConfig host = some mc) (a : UInt64) :
    (imcDecodePa host a).valid = true := by
  rw [imcDecodePa_eq, hmc]
  rfl

/-- The tuple of the page is the tuple of the address exactly for faithful offsets. -/
theorem rowTuple_pageAlign_iff (hmc : imcConfig host = some mc) (a : UInt64) :
    rowTuple (imcDecodePa host (pageAlign a)) = rowTuple (imcDecodePa host a) ↔
      PageFaithful mc a := by
  have hchannel := decodeChannel_pageAlign_iff mc a
  have hgroup := bankGroup_pageAlign_iff a
  rw [imcDecodePa_eq, imcDecodePa_eq, hmc]
  simp only [cflSklDecodePa, rowTuple, BadRow.mk.injEq]
  constructor
  · intro h
    obtain ⟨hch, hrank, hbg, -, -⟩ := h
    have hch' : cflSklDecodeChannel (pageAlign a) mc = cflSklDecodeChannel a mc := hch
    have hrank' : (cflSklDecodeRank (pageAlign a) (cflSklDecodeChannel (pageAlign a) mc) mc).rank =
      (cflSklDecodeRank a (cflSklDecodeChannel a mc) mc).rank := hrank
    rw [hch'] at hrank'
    obtain ⟨h7, h89⟩ := (hgroup _ _ _).mp hbg
    exact ⟨hchannel.mp hch', (decodeRank_pageAlign_iff mc a _).mp hrank', h7, h89⟩
  · intro h
    have hch := hchannel.mpr h.channel
    have hrank := (decodeRank_pageAlign_iff mc a (cflSklDecodeChannel a mc)).mpr h.rank
    refine ⟨hch, ?_, (hgroup _ _ _).mpr ⟨h.bit7, h.bits89⟩, bank_pageAlign a _ _ _,
      row_pageAlign a _ _ _ rfl⟩
    change (cflSklDecodeRank (pageAlign a) (cflSklDecodeChannel (pageAlign a) mc) mc).rank = _
    rw [hch, hrank]
    rfl

theorem suspectsAt_pageAlign (hmc : imcConfig host = some mc) {a : UInt64}
    (h : PageFaithful mc a) (p : BoardProfile) :
    suspectsAt host p (pageAlign a) = suspectsAt host p a := by
  have hch := (decodeChannel_pageAlign_iff mc a).mpr h.channel
  have hrank := (decodeRank_pageAlign_iff mc a (cflSklDecodeChannel a mc)).mpr h.rank
  have hvalid := decodeRank_valid_eq mc (pageAlign a) a (cflSklDecodeChannel a mc)
  unfold suspectsAt packagesOf rankRange
  rw [imcDecodePa_eq, imcDecodePa_eq, hmc]
  simp only [cflSklDecodePa, cflSklDecodeBankRowCol, hch, hrank, hvalid]

end

section
variable (host : McHost) (board : Option BoardProfile)

theorem attributesErrors_of_faithful {mc : McConfig} (hmc : imcConfig host = some mc)
    {reports : List UInt64} (hfits : (reports.map pageAlign).toFinset.card ≤ maxEntries)
    (hfaithful : ∀ a ∈ reports, PageFaithful mc a) : AttributesErrors host board reports := by
  intro a ha _
  have hvalid := imcDecodePa_valid hmc
  have hpage : pageAlign a ∈ recordAll maxEntries [] (reports.map pageAlign) :=
    mem_recordAll_of_fits hfits (List.mem_map_of_mem ha)
  constructor
  · intro hroom
    rw [runPass_rows host board hvalid] at hroom ⊢
    rw [← (rowTuple_pageAlign_iff hmc a).mpr (hfaithful a ha)]
    rcases mem_recordAll_or_full maxBadRows []
      (List.mem_map_of_mem (f := fun a => rowTuple (imcDecodePa host a)) hpage) with hin | hfull
    · exact hin
    · exact absurd hroom (Nat.not_lt.mpr hfull)
  · rw [← runPass_pages] at hpage
    obtain ⟨report, hreport, haddr, hchips⟩ :=
      foldl_step_reports host board hvalid _ ⟨[], reports.foldl boardReportError {}⟩ _ hpage
    refine ⟨report, hreport, haddr, ?_⟩
    intro p hp
    rw [hchips p hp, suspectsAt_pageAlign hmc (hfaithful a ha)]

/-- A single report which is not faithful is traced to a wrong row. -/
theorem faithful_of_attributesErrors {mc : McConfig} (hmc : imcConfig host = some mc)
    {a : UInt64} (h : AttributesErrors host board [a]) : PageFaithful mc a := by
  have hvalid := imcDecodePa_valid hmc
  have hrows : (runPass host board [a]).log.rows =
      [rowTuple (imcDecodePa host (pageAlign a))] := by
    rw [runPass_rows host board hvalid]
    rfl
  have hrow := (h a List.mem_cons_self (hvalid a)).row
  rw [hrows] at hrow
  have hroom : 1 < maxBadRows := by decide
  have hmem := List.mem_singleton.mp (hrow hroom)
  exact (rowTuple_pageAlign_iff hmc a).mp hmem.symm

/-- Runs of faithful reports are attributed correctly, and no other report is. -/
theorem errors_attributed_iff (mc : McConfig) (hmc : imcConfig host = some mc) :
    (∀ reports : List UInt64, (reports.map pageAlign).toFinset.card ≤ maxEntries →
      (∀ a ∈ reports, PageFaithful mc a) → AttributesErrors host board reports) ∧
      ∀ a, AttributesErrors host board [a] ↔ PageFaithful mc a := by
  refine ⟨fun reports hfits h => attributesErrors_of_faithful host board hmc hfits h, ?_⟩
  intro a
  constructor
  · intro h
    exact faithful_of_attributesErrors host board hmc h
  · intro h
    refine attributesErrors_of_faithful host board hmc ?_ ?_
    · exact (List.toFinset_card_le _).trans (show 1 ≤ 4096 by decide)
    · simpa using h

end

/-- Two channels of 16 GiB without a channel hash: bit 6 selects the channel. -/
def twoChannelHost : McHost :=
  ⟨0x47, 6, 0xe, 9, 0xfed10001, 0xfed10001, 0, true, ⟨0, 0, 0x410, 0x410, 0⟩⟩

theorem errors_attributed_second_page :
    AttributesErrors twoChannelHost (some profile82001814a) [0x1000] := by
  have hmode : rankMode (readConfig twoChannelHost.regs)
      (cflSklDecodeChannel 0x1000 (readConfig twoChannelHost.regs)) = .single := by decide +kernel
  refine ((errors_attributed_iff twoChannelHost (some profile82001814a)
    (readConfig twoChannelHost.regs) (by decide)).2 0x1000).mpr
    ⟨by decide +kernel, ?_, by decide, by decide⟩
  intro n h
  rw [hmode] at h
  cases h

/-- An error on channel 1 is put down to channel 0, where its page begins. -/
theorem channel_one_error_misattributed :
    (imcDecodePa twoChannelHost 0x40).channel = 1 ∧
      ¬AttributesErrors twoChannelHost (some profile82001814a) [0x40] := by
  refine ⟨by decide, ?_⟩
  intro h
  have hmc : imcConfig twoChannelHost = some (readConfig twoChannelHost.regs) := by decide
  have hfaithful := faithful_of_attributesErrors twoChannelHost (some profile82001814a) hmc h
  exact absurd hfaithful.channel (by decide +kernel)

end BankFinder.ErrorHook
