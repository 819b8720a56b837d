import Oxidalloc.HashmapRefinement
import Oxidalloc.Interleaving
import Oxidalloc.WordBitmap
import Oxidalloc.ClaimRace
import Oxidalloc.HeadPacking
import Oxidalloc.LinkedChain
import Oxidalloc.IccRace
import Oxidalloc.AlignTo
import Oxidalloc.GrowRace
import Oxidalloc.Programs
import Oxidalloc.VaSegment
import Oxidalloc.VaSegmentSpec
import Oxidalloc.VaBitmap
import Oxidalloc.VaBitmapSpec
import Oxidalloc.VaLookup
import Oxidalloc.VaRanges
import Oxidalloc.VaRefinement
import Oxidalloc.Abi
import Oxidalloc.AllocateSpec
import Oxidalloc.CacheLists
import Oxidalloc.CacheListsRefinement
import Oxidalloc.ForkReset
import Oxidalloc.GTrim
import Oxidalloc.GTrimSpec
import Oxidalloc.HardenedLists
import Oxidalloc.ShardCoverage
import Oxidalloc.SlabConservation
import Oxidalloc.ThreadExit
import Oxidalloc.ThreadExitReturns
import Oxidalloc.UsageRace
import Oxidalloc.AbiSpec
import Oxidalloc.DoubleFree
import Oxidalloc.BlockRecords
import Oxidalloc.BlockRecordsSpec
import Oxidalloc.ReallocRecordsSpec
import Oxidalloc.RecordAgreement
import Oxidalloc.RecordCalls
import Oxidalloc.BigMetadata
import Oxidalloc.ContentsKept
import Oxidalloc.Exhaustion
import Oxidalloc.Reservation
import Oxidalloc.TagTest
import Oxidalloc.AlignedBlocks
import Oxidalloc.BatchSweep
import Oxidalloc.GhostState
import Oxidalloc.TrimCaches
import Oxidalloc.TrimCoverage
import Oxidalloc.HashmapLoad
import Oxidalloc.CarvingTrace
import Oxidalloc.Environment
import Oxidalloc.SlabPartition
import Oxidalloc.ThreadBins
import Oxidalloc.ThreadCap
import Oxidalloc.BufferRefinement
import Oxidalloc.LockInvariants
import Oxidalloc.LockedLists
import Oxidalloc.Accounting
import Oxidalloc.CallEffects
import Oxidalloc.NoFalseAlarm
import Oxidalloc.TrimThread
import Oxidalloc.OnceRace
