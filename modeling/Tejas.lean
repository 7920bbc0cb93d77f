import Tejas.LabelledRuns
import Tejas.RingWindow
import Tejas.JavaHashtable
import Tejas.LockTable
import Tejas.EventQueue
import Tejas.LoadStoreQueue
import Tejas.LoadStoreQueueRing
import Tejas.FenceCounting
import Tejas.ListSearch
import Tejas.StoreForwarding
import Tejas.CacheLines
import Tejas.CacheFill
import Tejas.CoherenceEvents
import Tejas.Directory
import Tejas.DirectorySharers
import Tejas.MissRegister
import Tejas.CoherentCache
import Tejas.LineProtocol
import Tejas.LineTransactions
import Tejas.LineTracking
import Tejas.LineNotices
import Tejas.LineOwnership
import Tejas.CacheLineViews
import Tejas.CacheProtocol
import Tejas.CoherenceSystem
import Tejas.CoherenceRefinement
import Tejas.DirectoryTracksCopies
import Tejas.SingleWriter
import Tejas.RingIndices
import Tejas.RegisterPool
import Tejas.RenameTable
import Tejas.Instructions
import Tejas.ReorderBuffer
import Tejas.OutOfOrderPipeline
import Tejas.WakeUpScan
import Tejas.PipelineEntries
import Tejas.PipelineRenaming
import Tejas.Announcements
import Tejas.PipelineProgress
import Tejas.PipelineOrder
import Tejas.PipelineSteps
import Tejas.RegisterConservation
import Tejas.RegisterOverflow
import Tejas.LostWakeUps
import Tejas.IssueOrder
import Tejas.PacketReader
import Tejas.ThreadCount
import Tejas.InputOrder
import Tejas.TreeBarrier
import Tejas.FetchLogic
import Tejas.SyncWaits
import Tejas.HierarchyCache
import Tejas.HierarchySteps
import Tejas.WriteThrough
import Tejas.RegisterCapacity
import Tejas.AdaptiveRouting
import Tejas.NocRouting
import Tejas.NocRoutes
import Tejas.TurnModel
import Tejas.RouterBuffers
import Tejas.Assignments
import Tejas.SwitchNetworks
import Tejas.SwitchRoutes
import Tejas.SwitchEvents
import Tejas.RangeTrees
import Tejas.FatTree
import Tejas.DNuca
import Tejas.DNucaSteps
import Tejas.DNucaTracking
import Tejas.DNucaRequests
import Tejas.DNucaSearches
import Tejas.DNucaReplies
import Tejas.DNucaRuns
import Tejas.DNucaMisses
import Tejas.ReadAccounts
import Tejas.ReadAnswers
import Tejas.ReadProgress
import Tejas.TwoRuns
import Tejas.Tage
import Tejas.TageSharing
import Tejas.LoadStoreQueueOrder
import Tejas.LoadTraffic
import Tejas.LoadResolution
import Tejas.LoadCompletion
import Tejas.Peterson
import Tejas.ShmLock
import Tejas.ShmChannel
import Tejas.ShmConsumer
import Tejas.ShmDelivery
import Tejas.CircularQueue
import Tejas.AsmCharPool
import Tejas.NetworkPackets
import Tejas.NetworkFraming
import Tejas.TraceFile
import Tejas.TraceNumbers
import Tejas.TraceRoundTrip
import Tejas.Fusion
import Tejas.FusionConserves
import Tejas.X86Operands
import Tejas.X86Handlers
import Tejas.X86OperandSpec
import Tejas.AddressFlow
import Tejas.MicroOpMeaning
import Tejas.X86SourceOperands
import Tejas.X86Instructions
import Tejas.X86Meaning
import Tejas.X86HandlerMeaning
import Tejas.X86ControlMeaning
import Tejas.X86Translation
import Tejas.LruCache
import Tejas.TranslationCache
import Tejas.CacheSizes
import Tejas.CacheSets
import Tejas.MissOrder
import Tejas.PendingList
import Tejas.ReorderBufferOrder
import Tejas.TranslationBuffer
import Tejas.InvalidLines
import Tejas.BarrierTable
import Tejas.BarrierGenerations
import Tejas.WriteBack
import Tejas.QueueSearch
import Tejas.DramCommands
import Tejas.DramController
import Tejas.CommandBlocks
import Tejas.CommandPops
import Tejas.ColumnOrder
import Tejas.SlidingWindow
import Tejas.ActivateWindow
import Tejas.BitFolding
import Tejas.TageHistories
import Tejas.AddressMapping
import Tejas.RefreshSchedule
import Tejas.RingRouting
import Tejas.GApPredictor
import Tejas.RequestIssue
import Tejas.ExecutionCore
import Tejas.BoundedLoop
import Tejas.InorderPipeline
import Tejas.InorderSteps
import Tejas.InorderReadyTimes
import Tejas.BranchAddresses
import Tejas.DramRanks
import Tejas.StateUpdates
import Tejas.DramRuns
import Tejas.RankExits
import Tejas.DramTransactions
import Tejas.ObservedRuns
import Tejas.GenericCircularQueue
import Tejas.QueueListing
import Tejas.ServerQueue
import Tejas.Ports
import Tejas.MemoryClock
import Tejas.WhileLoops
import Tejas.StepSizes
import Tejas.TageRanges
import Tejas.LinkedPaths
import Tejas.GenericCircularBuffer
import Tejas.Tokens
import Tejas.QemuAssembly
import Tejas.SubsetTrace
import Tejas.FairSchedules
import Tejas.SubsetFinish
import Tejas.BenchmarkAddresses
import Tejas.TwoLevelTables
import Tejas.TwoLevelPredictors
import Tejas.SlotPool
import Tejas.InstructionWindow
import Tejas.WindowedPipeline
import Tejas.WindowConservation
import Tejas.RankedRuns
import Tejas.PipelineWork
import Tejas.PipelineFlow
import Tejas.PipelineDrain
import Tejas.WindowedDrain
import Tejas.StageRing
import Tejas.RiscVOperands
import Tejas.RiscVOperandSpec
import Tejas.RiscVHandlers
import Tejas.RiscVFrame
import Tejas.FetchBuffer
import Tejas.FetchOrder
import Tejas.InorderRings
import Tejas.InorderStream
import Tejas.InorderRefinement
import Tejas.ExpertChoice
import Tejas.TournamentPredictor
