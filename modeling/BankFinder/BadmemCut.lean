import BankFinder.RegionValues
import BankFinder.MaskShim

/-!
# A file which is longer than its buffer

`read_badmem` reads so many bytes of the file and parses them as if the file ended there.
The lines behind are lost, and the line at the cut counts as far as it was read.
-/

namespace BankFinder.BadmemCut
open Nvram BootSession BadmemParse BadmemLines BadmemGrammar RegionValues CutRecords MaskShim

/-- The file which is opened and read without an error. -/
structure OpenedFile (v : ShimVolume) (f : TextFile) : Prop where
  loadedImage : v.loadedImage = efiSuccess
  simpleFileSystem : v.simpleFileSystem = efiSuccess
  openVolume : v.openVolume = efiSuccess
  openFile : v.openFile "EFI\\BRR\\badmem.txt" = .ok f ∨
    (∃ e, v.openFile "EFI\\BRR\\badmem.txt" = .error e) ∧
      v.openFile "EFI\\BOOT\\badmem.txt" = .ok f
  readStatus : f.readStatus = efiSuccess

theorem readBadmem_opened {v : ShimVolume} {f : TextFile} (h : OpenedFile v f) : readBadmem v =
    (efiSuccess,
      badmemParseFull (f.content.take (fileBufSize - 1)) badmemMaxRanges badmemMaxChips) := by
  unfold readBadmem
  rw [if_neg (not_not.mpr h.loadedImage), if_neg (not_not.mpr h.simpleFileSystem),
    if_neg (not_not.mpr h.openVolume)]
  rcases h.openFile with hfirst | ⟨⟨e, hfirst⟩, hsecond⟩
  · simp only [hfirst, ne_eq, h.readStatus, not_true_eq_false, if_false]
  · simp only [hfirst, hsecond, ne_eq, h.readStatus, not_true_eq_false, if_false]

def chipLines (buf : List UInt8) : List (List UInt8) :=
  (buf.splitOn lineFeed).filter fun line => (lineChip line).isSome

/-- Each region line and each chip line has its entry, with the values which it writes. -/
structure AllReturned (buf : List UInt8) (r : BadmemResult) : Prop where
  regions : List.Forall₂ (fun line range => ∀ addr len, RegionLine line addr len →
    RangeFor addr len range) (regionLines buf) r.ranges
  chips : List.Forall₂ (fun line chip => ∀ d, ChipLine line d → chip = unresolvedChip d)
    (chipLines buf) r.chips

theorem region_written_iff {buf line : List UInt8} (h : line ∈ regionLines buf)
    (range : BadmemRange) :
    (∀ addr len, RegionLine line addr len → RangeFor addr len range) ↔
      (∀ addr len, RegionLine line addr len → Representable addr len) ∧
        lineRegion line = some range := by
  obtain ⟨hsplit, addr₀, len₀, hregion⟩ := mem_regionLines.mp h
  have hline := notMem_of_mem_splitOn hsplit
  constructor
  · intro hwritten
    refine ⟨fun addr len h => (hwritten addr len h).representable, ?_⟩
    exact (lineRegion_iff hline range).mpr
      ⟨addr₀, len₀, hregion, (rangeFor_iff.mp (hwritten addr₀ len₀ hregion)).2⟩
  · intro hfits addr len hwritten
    obtain ⟨hfits, hrange⟩ := hfits
    exact rangeFor_iff.mpr
      ⟨hfits addr len hwritten, lineRegion_of_regionLine hline hwritten hrange⟩

theorem regions_returned_iff {buf : List UInt8} {ranges : List BadmemRange} :
    List.Forall₂ (fun line range => ∀ addr len, RegionLine line addr len →
        RangeFor addr len range) (regionLines buf) ranges ↔
      (∀ line ∈ regionLines buf, ∀ addr len, RegionLine line addr len →
        Representable addr len) ∧ ranges = entries lineFeed lineRegion buf := by
  rw [eq_entries_iff, ← regionLines, ← List.forall₂_and_left]
  exact ⟨forall₂_imp_mem fun line h range => (region_written_iff h range).mp,
    forall₂_imp_mem fun line h range => (region_written_iff h range).mpr⟩

theorem chips_returned_iff {buf : List UInt8} {chips : List BadmemChip} :
    List.Forall₂ (fun line chip => ∀ d, ChipLine line d → chip = unresolvedChip d)
        (chipLines buf) chips ↔ chips = entries lineFeed lineChip buf := by
  have hchip {line : List UInt8} (h : line ∈ chipLines buf) (chip : BadmemChip) :
      (∀ d, ChipLine line d → chip = unresolvedChip d) ↔ lineChip line = some chip := by
    obtain ⟨hsplit, hsome⟩ := List.mem_filter.mp h
    have hiff := lineChip_iff (notMem_of_mem_splitOn hsplit)
    obtain ⟨found, hfound⟩ := Option.isSome_iff_exists.mp hsome
    obtain ⟨d, hd, hfoundd⟩ := (hiff found).mp hfound
    constructor
    · intro hwritten
      exact (hiff chip).mpr ⟨d, hd, hwritten d hd⟩
    · intro hlineChip d' hd'
      exact Option.some.inj (hlineChip.symm.trans ((hiff _).mpr ⟨d', hd', rfl⟩))
  rw [eq_entries_iff]
  exact ⟨forall₂_imp_mem fun line h chip => (hchip h chip).mp,
    forall₂_imp_mem fun line h chip => (hchip h chip).mpr⟩

theorem allReturned_iff {buf : List UInt8} {r : BadmemResult} : AllReturned buf r ↔
    (∀ line ∈ regionLines buf, ∀ addr len, RegionLine line addr len → Representable addr len) ∧
      r.ranges = entries lineFeed lineRegion buf ∧ r.chips = entries lineFeed lineChip buf := by
  rw [← and_assoc, ← regions_returned_iff, ← chips_returned_iff]
  exact ⟨fun h => ⟨h.regions, h.chips⟩, fun h => ⟨h.1, h.2⟩⟩

theorem lineRegion_nil : lineRegion [] = none := rfl
theorem lineChip_nil : lineChip [] = none := rfl

theorem length_regionLines (buf : List UInt8) :
    (regionLines buf).length = (entries lineFeed lineRegion buf).length :=
  (forall₂_entries lineFeed buf).length_eq

theorem length_chipLines (buf : List UInt8) :
    (chipLines buf).length = (entries lineFeed lineChip buf).length :=
  (forall₂_entries lineFeed buf).length_eq

/-- All entries are returned exactly when their numbers can be represented, and the cut at the
end of the buffer loses and changes nothing. -/
theorem all_returned_iff {v : ShimVolume} {f : TextFile} (hopened : OpenedFile v f)
    (hregions : (regionLines f.content).length ≤ badmemMaxRanges)
    (hchips : (chipLines f.content).length ≤ badmemMaxChips) :
    (readBadmem v).1 = efiSuccess ∧ AllReturned f.content (readBadmem v).2 ↔
      (∀ line ∈ regionLines f.content, ∀ addr len, RegionLine line addr len →
        Representable addr len) ∧
      CutKeeps lineFeed lineRegion badmemMaxRanges (fileBufSize - 1) f.content ∧
      CutKeeps lineFeed lineChip badmemMaxChips (fileBufSize - 1) f.content := by
  rw [length_regionLines] at hregions
  rw [length_chipLines] at hchips
  rw [readBadmem_opened hopened, allReturned_iff, badmemParseFull_entries,
    ← take_entries_iff lineFeed lineRegion_nil _ hregions,
    ← take_entries_iff lineFeed lineChip_nil _ hchips, and_iff_right rfl]

/-- A volume with this text as its only list. -/
def textVolume (content : List UInt8) : ShimVolume where
  loadedImage := efiSuccess
  simpleFileSystem := efiSuccess
  openVolume := efiSuccess
  openFile _ := .ok ⟨content, efiSuccess⟩

theorem textVolume_opened (content : List UInt8) :
    OpenedFile (textVolume content) ⟨content, efiSuccess⟩ :=
  ⟨rfl, rfl, rfl, Or.inl rfl, rfl⟩

/-- Two regions, a comment, a chip and a line which is neither. -/
def shortText : List UInt8 :=
  ascii "0x12000,4096" ++ lineFeed :: (ascii "# below" ++ lineFeed :: (ascii "77824,0x2000" ++
    lineFeed :: (ascii "chip,U2410" ++ lineFeed :: ascii "0x,1")))

theorem all_returned_short :
    (readBadmem (textVolume shortText)).1 = efiSuccess ∧
      AllReturned shortText (readBadmem (textVolume shortText)).2 := by
  have hshort : ∀ line ∈ regionLines shortText, line.length ≤ 15 := by decide +kernel
  apply (all_returned_iff (textVolume_opened shortText) (by decide +kernel)
    (by decide +kernel)).mpr
  refine ⟨?_, Or.inl (by decide +kernel), Or.inl (by decide +kernel)⟩
  intro line hline addr len
  exact representable_of_short (hshort line hline)

/-- A line of comment. -/
def longComment : List UInt8 := BadmemParse.hash :: 0x78 :: List.replicate 65524 0x78

/-- Behind the comment the buffer has eight bytes left. -/
def longText : List UInt8 := longComment ++ lineFeed :: ascii "0x1000,8192"

theorem lineFeed_notMem_comment : lineFeed ∉ longComment := by
  unfold longComment
  simp only [List.mem_cons, List.mem_replicate, not_or, not_and]
  exact ⟨by decide, by decide, fun _ => by decide⟩

theorem longComment_region : lineRegion longComment = none := by
  rw [lineRegion_eq lineFeed_notMem_comment]
  exact parseRegion_none (by decide) _

theorem longComment_chip : lineChip longComment = none := by
  rw [lineChip_eq lineFeed_notMem_comment]
  rfl

theorem longText_entries (text : List UInt8) :
    entries lineFeed lineRegion (longComment ++ lineFeed :: text) =
      entries lineFeed lineRegion text ∧
    entries lineFeed lineChip (longComment ++ lineFeed :: text) =
      entries lineFeed lineChip text := by
  rw [entries_append_cons, entries_append_cons, entries_of_notMem _ lineFeed_notMem_comment,
    entries_of_notMem _ lineFeed_notMem_comment, longComment_region, longComment_chip]
  exact ⟨rfl, rfl⟩

theorem longText_take : longText.take (fileBufSize - 1) =
    longComment ++ lineFeed :: ascii "0x1000,8" := by
  have hlength : longComment.length = 65526 := by
    rw [longComment, List.length_cons, List.length_cons, List.length_replicate]
  rw [longText, List.take_append, List.take_of_length_le (by rw [hlength]; decide), hlength]
  rfl

/-- Of the length of two pages only its first digit is read. -/
theorem second_page_lost :
    OpenedFile (textVolume longText) ⟨longText, efiSuccess⟩ ∧
      (regionLines longText).length = 1 ∧ (chipLines longText).length = 0 ∧
      (readBadmem (textVolume longText)).2.ranges = [⟨0x1000, 0x1000⟩] ∧
      ¬AllReturned longText (readBadmem (textVolume longText)).2 := by
  have hregions := (longText_entries (ascii "0x1000,8192")).1
  have hranges : (readBadmem (textVolume longText)).2.ranges = [⟨0x1000, 0x1000⟩] := by
    rw [readBadmem_opened (textVolume_opened longText), longText_take, badmemParseFull_entries,
      (longText_entries _).1]
    decide +kernel
  refine ⟨textVolume_opened longText, ?_, ?_, hranges, ?_⟩
  · rw [length_regionLines, longText, hregions]
    decide +kernel
  · rw [length_chipLines, longText, (longText_entries _).2]
    decide +kernel
  · rw [allReturned_iff, hranges, longText, hregions]
    intro h
    exact absurd h.2.1 (by decide +kernel)

end BankFinder.BadmemCut
