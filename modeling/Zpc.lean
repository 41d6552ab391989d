import Zpc.AsyncCallbackEvent
import Zpc.AsyncFlag
import Zpc.AsyncRuntimeEvent
import Zpc.CpuGraphExecutor
import Zpc.ExecutionGraphExclusive
import Zpc.AsyncSchedulerWait
import Zpc.AsyncSchedulerWake
import Zpc.AsyncSchedulerGraph
import Zpc.AsyncRuntimeDispatch
import Zpc.AsyncRuntimeResume
import Zpc.AsyncResourceMaintenance
import Zpc.AsyncResourcePayload
import Zpc.AsyncResourceEpoch
import Zpc.AsyncRuntimeAbi
import Zpc.RBTreeMapRefinement
import Zpc.RBTreeMapTraversal
import Zpc.RBTreeMapBounds
import Zpc.SparseMatrixBuild
import Zpc.SparseMatrixProduct
import Zpc.SparseMatrixTransposeResult
import Zpc.SparseMatrixLookup
import Zpc.BhtResize
import Zpc.BhtReorder
import Zpc.SparseMatrixTopologyResult
import Zpc.VkRenderGraphCache
import Zpc.VkRenderGraphAliasing
import Zpc.VkRenderGraphSchedule
import Zpc.VkRenderGraphEdits
import Zpc.VkRenderGraphBarriers
import Zpc.VkTransientResource
import Zpc.VkPipelineSerialization
import Zpc.VkPipelineJsonRoundTrip
import Zpc.VkPipelineTruncation
import Zpc.VkPipelineStateManager
import Zpc.SpscQueue
import Zpc.AsyncMemoryPoolRun
import Zpc.RationalOrder
import Zpc.HashTableInsert
import Zpc.HashTablePreserveResult
import Zpc.BchtInsert
import Zpc.BchtFailure
import Zpc.OmpScanAgreement
import Zpc.OmpRadixSort
import Zpc.OmpMergeSortResult
import Zpc.OmpSortPair
import Zpc.ParkingLotLifetime
import Zpc.MutexWake
import Zpc.ConditionVariable
import Zpc.ConditionVariableCalls
import Zpc.ActionMapPhases
import Zpc.CharacterJumps
import Zpc.VectorSerialization
import Zpc.LocalInterfaceServices
import Zpc.ValidationComparePairing
import Zpc.SharedPtrRuns
import Zpc.ConnectedComponents
import Zpc.MaximumFlow
import Zpc.LBvhTree
import Zpc.VectorReorder
import Zpc.VecPackHash
import Zpc.Coloring
import Zpc.ColoringMaximum
import Zpc.WordBits
import Zpc.BitMask
import Zpc.BitMaskQueries
import Zpc.LBvs
import Zpc.TileVector
import Zpc.SpatialHashNeighbors
import Zpc.FutexWake
import Zpc.AugmentedPath
import Zpc.AugmentedPathResult
import Zpc.CoroutineGenerator
import Zpc.InputBuffer
import Zpc.RingBufferList
import Zpc.StackAllocator
import Zpc.HandleResource
import Zpc.LocalCanaryService
import Zpc.ActionMapValues
import Zpc.GameplayPipeline
import Zpc.VirtualMemory
import Zpc.VirtualMemoryResidency
import Zpc.BvttFront
import Zpc.BvttFrontOverflow
import Zpc.BitPackSpread
import Zpc.AdaptiveGridCoords
import Zpc.IndexRanges
import Zpc.ShaderManager
import Zpc.RationalRounding
import Zpc.MetadataDsl
import Zpc.MetadataDslRoundTrip
import Zpc.MetadataDslReading
import Zpc.MetadataDslKeeps
import Zpc.CppLiterals
import Zpc.CodegenLiterals
import Zpc.CommutingActions
import Zpc.CpuGraphMemory
import Zpc.RBTreeMapDepth
