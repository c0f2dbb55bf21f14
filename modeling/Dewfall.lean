import Dewfall.General.Transition
import Dewfall.General.Ledger
import Dewfall.General.OrderedIntervals
import Dewfall.General.DenseMap
import Dewfall.General.Words
import Dewfall.General.Cells
import Dewfall.General.SortedWindows
import Dewfall.General.Holdings
import Dewfall.General.Compaction
import Dewfall.Core.BlobManager
import Dewfall.Core.BlobFreeSpace
import Dewfall.Core.BlobRegister
import Dewfall.Core.BlobRelease
import Dewfall.Core.BlobClaim
import Dewfall.Core.BlobRuns
import Dewfall.Core.BlobIndex
import Dewfall.Core.BlobIndexRuns
import Dewfall.Core.PackedFile
import Dewfall.Core.PackedFileRuns
import Dewfall.Core.BlobResidency
import Dewfall.Core.SpillStore
import Dewfall.Core.SpillRuns
import Dewfall.Core.SpillSegments
import Dewfall.Core.SpillJournal
import Dewfall.Core.BlobReader
import Dewfall.Core.BlobReaderRuns
import Dewfall.Core.Morton
import Dewfall.Core.MortonTree
import Dewfall.Core.StorageMap
import Dewfall.Converter.UploadRuns
import Dewfall.Converter.DoneBoundary
import Dewfall.Converter.Processor
import Dewfall.Converter.ProcessorIdle
import Dewfall.Converter.CheckpointWrites
import Dewfall.Converter.ChunkPipeline
import Dewfall.Converter.PointSplitter
import Dewfall.Converter.TreeBuild
import Dewfall.Converter.TreeSplit
import Dewfall.Converter.TreeInsert
import Dewfall.Converter.TreeDescend
import Dewfall.Converter.TreeEnter
import Dewfall.Converter.TreeGraft
import Dewfall.Converter.TreeRegistry
import Dewfall.Converter.TreeBuildRuns
import Dewfall.Converter.TreeMerge
import Dewfall.Converter.TreeHandler
import Dewfall.Access.RequestDelivery
import Dewfall.Access.RegionRequest
import Dewfall.Access.RegionAlignment
import Dewfall.Converter.FreedLocations
import Dewfall.Converter.BandEmission
import Dewfall.General.KeyedStream
import Dewfall.Converter.SpillFile
import Dewfall.Converter.AmendSort
import Dewfall.Converter.OctantSplit
import Dewfall.Core.MortonInterleave
import Dewfall.Access.PositionDecoders
import Dewfall.General.Representatives
import Dewfall.Access.RegionWalk
import Dewfall.Access.RegionCut
import Dewfall.Converter.LodMerge
import Dewfall.Converter.DoneCorner
import Dewfall.Core.TreeSerialize
import Dewfall.Core.RegistrySerialize
import Dewfall.Core.BlobExact
import Dewfall.Core.BlobTail
import Dewfall.Core.BlobWords
import Dewfall.Core.BlobSerialize
import Dewfall.Converter.EventPipes
import Dewfall.Converter.InputSnapshot
import Dewfall.Core.CheckpointRollback
import Dewfall.Converter.InputResume
import Dewfall.Converter.ResumedSession
import Dewfall.Core.ResidencySlab
import Dewfall.Core.ResidencyRuns
import Dewfall.Core.ResidencyBytes
import Dewfall.Access.WalkConvergence
import Dewfall.Converter.TreeDepth
import Dewfall.Core.MortonAdd
import Dewfall.Core.MortonLevels
import Dewfall.Core.CoroGate
import Dewfall.General.CountingSort
import Dewfall.Converter.LodOrder
import Dewfall.Core.WordArithmetic
import Dewfall.General.Buffers
import Dewfall.Core.Preprocess
import Dewfall.Converter.UploadWindow
import Dewfall.Converter.GpuBudget
import Dewfall.Core.AttributeConfigs
import Dewfall.Core.AttributeMapping
import Dewfall.Core.CoordinateTransform
import Dewfall.Converter.Sorter
import Dewfall.Core.Decompress
import Dewfall.Core.DecompressSafe
import Dewfall.Core.DecompressAny
import Dewfall.Core.LruCache
import Dewfall.Core.LruCacheRuns
import Dewfall.Converter.TreeReparent
import Dewfall.Converter.AmendJoin
import Dewfall.Converter.AmendUnits
import Dewfall.Converter.AmendCommit
import Dewfall.Converter.LodPublish
import Dewfall.General.Blocks
import Dewfall.Converter.ArrayBuild
import Dewfall.Converter.LodHistory
import Dewfall.Converter.ArrayForm
import Dewfall.Converter.ArrayNest
import Dewfall.Converter.ArrayGrow
import Dewfall.Converter.ArrayHang
import Dewfall.Converter.ArrayInsert
import Dewfall.Converter.ArrayReparent
import Dewfall.Converter.ArrayRuns
import Dewfall.Converter.ArrayLeaves
import Dewfall.Converter.ResumedProgress
import Dewfall.Converter.InputCounters
