import BankFinder.ErrorHook

/-!
# Enumerating the pages of a row

`shim_cfl_enumerate_row` walks the address space below the installed memory and
keeps the page bases which decode to a given tuple, up to a capacity. A tuple
which memtest recorded came from a page base, so the walk finds that page again.
-/

namespace BankFinder.RowEnumeration
open BootSession CflSkl ShimDecoder DecoderAgreement PageDecode BadmemLog ErrorHook
open BoardTopology

/-- The tests of the loop body; the rank counts only when it is known. -/
def rowMatches (mc : ShimMc) (t : BadRow) (pa : UInt64) : Bool :=
  let d := shimCflDecodePa mc pa
  d.valid && d.bankRowValid && d.channel == t.ch && (!d.rankValid || d.rank == t.rank) &&
    d.bankGroup == t.bg && d.bank == t.bank && d.row == t.row

/-- The walk; it ends early when `out` holds `cap` addresses. -/
def enumerateFrom (mc : ShimMc) (t : BadRow) (cap : ℕ) : List UInt64 → List UInt64 → List UInt64
  | [], out => out
  | pa :: pas, out =>
      if out.length < cap then
        enumerateFrom mc t cap pas (if rowMatches mc t pa then out ++ [pa] else out)
      else out

def shimCflEnumerateRow (mc : ShimMc) (t : BadRow) (cap : ℕ) : List UInt64 :=
  if !mc.valid || cap = 0 then []
  else
    let total := shimCflTotalMemory mc
    if total = 0 then [] else enumerateFrom mc t cap (pages 0 total) []

theorem enumerateFrom_eq (mc : ShimMc) (t : BadRow) (cap : ℕ) (pas out : List UInt64) :
    enumerateFrom mc t cap pas out =
      out ++ (pas.filter (rowMatches mc t)).take (cap - out.length) := by
  induction pas generalizing out with
  | nil => simp [enumerateFrom]
  | cons pa pas ih =>
      unfold enumerateFrom
      by_cases hroom : out.length < cap
      · rw [if_pos hroom, ih]
        by_cases hmatch : rowMatches mc t pa = true
        · have hsub : cap - out.length = cap - (out.length + 1) + 1 := by omega
          rw [if_pos hmatch, List.filter_cons_of_pos hmatch, List.length_append,
            List.length_singleton, hsub, List.take_succ_cons, List.append_assoc,
            List.singleton_append]
        · rw [if_neg hmatch, List.filter_cons_of_neg hmatch]
      · rw [if_neg hroom, Nat.sub_eq_zero_of_le (Nat.le_of_not_lt hroom), List.take_zero,
          List.append_nil]

/-- A page of installed memory which decodes to the tuple. -/
structure RowPage (mc : ShimMc) (t : BadRow) (pa : UInt64) : Prop where
  below_total : pa < shimCflTotalMemory mc
  aligned : 4096 ∣ pa.toNat
  channel : (shimCflDecodePa mc pa).channel = t.ch
  rank : (shimCflDecodePa mc pa).rankValid = true → (shimCflDecodePa mc pa).rank = t.rank
  bankGroup : (shimCflDecodePa mc pa).bankGroup = t.bg
  bank : (shimCflDecodePa mc pa).bank = t.bank
  row : (shimCflDecodePa mc pa).row = t.row

section
variable {mc : McConfig}

theorem enumerateRow_eq (hpop : mc.channelsPopulated > 0) (t : BadRow) (cap : ℕ) :
    shimCflEnumerateRow (shimMc mc) t cap =
      ((pages 0 (shimCflTotalMemory (shimMc mc))).filter (rowMatches (shimMc mc) t)).take cap := by
  have hvalid : (!(shimMc mc).valid) = false := by simp [shimMc, hpop]
  unfold shimCflEnumerateRow
  rw [hvalid, Bool.false_or]
  by_cases hcap : cap = 0
  · simp [hcap]
  · by_cases htotal : shimCflTotalMemory (shimMc mc) = 0
    · simp [htotal, pages_empty]
    · simp only [decide_eq_true_eq, if_neg hcap, if_neg htotal, enumerateFrom_eq]
      simp

/-- A walk which did not fill its buffer returned every matching page. -/
theorem enumerateRow_of_room (hpop : mc.channelsPopulated > 0) (t : BadRow) {cap : ℕ}
    (hroom : (shimCflEnumerateRow (shimMc mc) t cap).length < cap) :
    shimCflEnumerateRow (shimMc mc) t cap =
      (pages 0 (shimCflTotalMemory (shimMc mc))).filter (rowMatches (shimMc mc) t) := by
  rw [enumerateRow_eq hpop] at hroom ⊢
  rw [List.length_take] at hroom
  exact List.take_of_length_le (by omega)

variable (hmc : ConfigShape mc) (hpop : mc.channelsPopulated > 0)
include hmc hpop

theorem rowMatches_iff (t : BadRow) {pa : UInt64} :
    pa ∈ (pages 0 (shimCflTotalMemory (shimMc mc))).filter (rowMatches (shimMc mc) t) ↔
      RowPage (shimMc mc) t pa := by
  have hagree := decodePa_agree hmc hpop pa
  have hvalid := (agree_of_shape hmc hpop).decode_valid pa
  have hbank : (shimCflDecodePa (shimMc mc) pa).bankRowValid = true := hagree.bankRowValid
  rw [List.mem_filter, mem_pages zero_aligned (shimTotal_aligned hmc hpop)]
  unfold rowMatches
  simp only [hvalid, hbank, Bool.true_and, Bool.and_eq_true, Bool.or_eq_true, beq_iff_eq,
    Bool.not_eq_true']
  constructor
  · intro h
    obtain ⟨⟨-, hlt, hdvd⟩, ⟨⟨⟨hch, hrank⟩, hbg⟩, hba⟩, hrow⟩ := h
    refine ⟨hlt, hdvd, hch, ?_, hbg, hba, hrow⟩
    intro hknown
    rcases hrank with hunknown | hrank
    · rw [hunknown] at hknown
      exact absurd hknown Bool.false_ne_true
    · exact hrank
  · intro h
    refine ⟨⟨UInt64.zero_le, h.below_total, h.aligned⟩, ⟨⟨⟨h.channel, ?_⟩, h.bankGroup⟩, h.bank⟩,
      h.row⟩
    cases hknown : (shimCflDecodePa (shimMc mc) pa).rankValid with
    | false => exact Or.inl rfl
    | true => exact Or.inr (h.rank hknown)

theorem enumerateRow_sorted (t : BadRow) (cap : ℕ) :
    (shimCflEnumerateRow (shimMc mc) t cap).Pairwise (· < ·) := by
  rw [enumerateRow_eq hpop]
  exact ((pages_sorted zero_aligned (shimTotal_aligned hmc hpop)).filter _).sublist
    (List.take_sublist _ _)

theorem rowPage_of_mem {t : BadRow} {cap : ℕ} {pa : UInt64}
    (h : pa ∈ shimCflEnumerateRow (shimMc mc) t cap) : RowPage (shimMc mc) t pa := by
  rw [enumerateRow_eq hpop] at h
  exact (rowMatches_iff hmc hpop t).mp (List.mem_of_mem_take h)

end

theorem imcConfig_of_accessible {host : McHost} (h : host.accessible = true)
    (hdimm : host.regs.HasDimm) : imcConfig host = some (readConfig host.regs) := by
  have hdetect : cflSklDetect host = true := by
    unfold McHost.accessible at h
    rw [Bool.and_eq_true, Bool.and_eq_true] at h
    exact h.1.1
  unfold imcConfig
  rw [if_pos hdetect]
  exact cflSklConfig_of_accessible h hdimm

/-- What memtest records for a single report. -/
theorem runPass_rows_single (host : McHost) (board : Option BoardProfile) {mc : McConfig}
    (hmc : imcConfig host = some mc) (a : UInt64) :
    (runPass host board [a]).log.rows = [rowTuple (imcDecodePa host (pageAlign a))] := by
  rw [runPass_rows host board (imcDecodePa_valid hmc)]
  rfl

/-- The page itself matches the tuple which was recorded for it. -/
theorem rowPage_recorded {mc : McConfig} (hmc : ConfigShape mc) (hpop : mc.channelsPopulated > 0)
    {page : UInt64} (hpage : 4096 ∣ page.toNat) (hlt : page < shimCflTotalMemory (shimMc mc)) :
    RowPage (shimMc mc) (rowTuple (cflSklDecodePa (some mc) page)) page := by
  have hagree := decodePa_agree hmc hpop page
  exact ⟨hlt, hpage, hagree.channel, fun _ => hagree.rank, hagree.bankGroup, hagree.bank,
    hagree.row⟩

theorem pageAlign_lt {a total : UInt64} (h : a < total) : pageAlign a < total := by
  rw [UInt64.lt_iff_toNat_lt, pageAlign_toNat] at *
  omega

/-- The tuple which memtest records for a reported address leads the shim back to
the page of that address, and only to pages of the same row. -/
theorem recorded_row_enumerated (shim : ShimHost) (host : McHost)
    (board : Option BoardProfile) (hshim : shim.accessible = true)
    (hhost : host.accessible = true) (hregs : shim.regs = host.regs)
    (hdimm : host.regs.HasDimm) (a : UInt64)
    (ha : a < shimCflTotalMemory (shimCflInit shim)) :
    ∃ t, (runPass host board [a]).log.rows = [t] ∧ ∀ cap,
      (shimCflEnumerateRow (shimCflInit shim) t cap).length < cap →
        pageAlign a ∈ shimCflEnumerateRow (shimCflInit shim) t cap ∧
        (shimCflEnumerateRow (shimCflInit shim) t cap).Pairwise (· < ·) ∧
        ∀ pa ∈ shimCflEnumerateRow (shimCflInit shim) t cap,
          RowPage (shimCflInit shim) t pa := by
  have hmc := readConfig_shape host.regs
  have hpop := (hasDimm_iff host.regs).mp hdimm
  have hconfig := imcConfig_of_accessible hhost hdimm
  rw [shimCflInit_of_accessible hshim, hregs] at ha ⊢
  refine ⟨_, runPass_rows_single host board hconfig a, ?_⟩
  intro cap hroom
  refine ⟨?_, enumerateRow_sorted hmc hpop _ cap, fun pa hpa => rowPage_of_mem hmc hpop hpa⟩
  rw [enumerateRow_of_room hpop _ hroom, rowMatches_iff hmc hpop, imcDecodePa_eq, hconfig]
  exact rowPage_recorded hmc hpop (pageAlign_aligned a) (pageAlign_lt ha)

theorem recorded_row_enumerated_page :
    ∃ t, (runPass twoChannelHost none [0x12345678]).log.rows = [t] ∧ ∀ cap,
      (shimCflEnumerateRow (shimCflInit ⟨0x906ea, 0xfed10001, 0, twoChannelHost.regs⟩)
        t cap).length < cap →
      0x12345000 ∈ shimCflEnumerateRow
        (shimCflInit ⟨0x906ea, 0xfed10001, 0, twoChannelHost.regs⟩) t cap := by
  obtain ⟨t, hrows, hall⟩ := recorded_row_enumerated
    ⟨0x906ea, 0xfed10001, 0, twoChannelHost.regs⟩ twoChannelHost none (by decide) (by decide) rfl
    (by decide) 0x12345678 (by decide)
  exact ⟨t, hrows, fun cap hroom => (hall cap hroom).1⟩

end BankFinder.RowEnumeration
