import BankFinder.AlignedWords
import BankFinder.LittleEndian
import BankFinder.BitLoops
import BankFinder.CappedLog
import BankFinder.SegmentCut
import BankFinder.SegmentMerge
import BankFinder.SeparatedWords
import BankFinder.AlignedHull
import BankFinder.CutRecords
import BankFinder.RestartScan
import BankFinder.LabelledRuns
import BankFinder.BoundedCursor
import BankFinder.FixedBuffer
import BankFinder.HaltingLoop
import BankFinder.StringSets
import BankFinder.PollLoop
import BankFinder.TaggedNodes
import BankFinder.NamedTrees
import BankFinder.OutcomeTriples
import BankFinder.InPlaceSorting
import BankFinder.TieredSearch
import BankFinder.CTokens
import BankFinder.CDeclarations
import BankFinder.Painting
import BankFinder.Nvram
import BankFinder.BootSession
import BankFinder.PageMask
import BankFinder.MaskCoverage
import BankFinder.MaskAlgebra
import BankFinder.MemmapVerify
import BankFinder.BadPages
import BankFinder.BadmemParse
import BankFinder.BadmemLines
import BankFinder.BadmemGrammar
import BankFinder.BadmemCursor
import BankFinder.RegionValues
import BankFinder.ChipList
import BankFinder.CflSkl
import BankFinder.ShimDecoder
import BankFinder.DecoderAgreement
import BankFinder.PageDecode
import BankFinder.CellBits
import BankFinder.LostBits
import BankFinder.SelftestPairs
import BankFinder.BoardTopology
import BankFinder.BadmemLog
import BankFinder.ErrorHook
import BankFinder.RowEnumeration
import BankFinder.ChipMask
import BankFinder.ChipEntries
import BankFinder.ChipText
import BankFinder.RowMask
import BankFinder.RowsBlob
import BankFinder.SmbiosStrings
import BankFinder.SmbiosScan
import BankFinder.SkipPrune
import BankFinder.SkipList
import BankFinder.PrunedMap
import BankFinder.BurstDetector
import BankFinder.MaskShim
import BankFinder.BadmemCut
import BankFinder.TrialBoot
import BankFinder.BootNames
import BankFinder.EfiMachine
import BankFinder.MachineFrame
import BankFinder.MaskOps
import BankFinder.MaskFrames
import BankFinder.Uninstall
import BankFinder.UninstallFiles
import BankFinder.Install
import BankFinder.InstallUndo
import BankFinder.InstallRollback
import BankFinder.BootOrder
import BankFinder.CopyFile
import BankFinder.AddressEntry
import BankFinder.LineEditor
import BankFinder.AddressWords
import BankFinder.AddressDump
import BankFinder.BrrEntry
import BankFinder.CancelKeys
import BankFinder.DevicePaths
import BankFinder.LoadOption
import BankFinder.OptionBounds
import BankFinder.SelfEntry
import BankFinder.BootSearch
import BankFinder.CandidatePaths
import BankFinder.SearchComplete
import BankFinder.WalkBuffer
import BankFinder.DirectoryScan
import BankFinder.QuickRetry
import BankFinder.AutoInstall
import BankFinder.MaskInstall
import BankFinder.SavedList
import BankFinder.InstallTriples
import BankFinder.StateHistory
import BankFinder.ForeignVars
import BankFinder.MaskedForGood
import BankFinder.Handover
import BankFinder.SkippedMemory
import BankFinder.DecoderSelftest
import BankFinder.TrustedRows
import BankFinder.LoaderChoice
import BankFinder.LifeCycle
import BankFinder.AsTried
import BankFinder.VerifyMask
import BankFinder.ScaledText
import BankFinder.BoardTable
import BankFinder.CompiledTable
