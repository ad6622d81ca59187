import TrtLlm.BatchManager.StoreForReuse
import TrtLlm.Disaggregation.Consensus
import TrtLlm.Disaggregation.RegionMapper
import TrtLlm.Disaggregation.SendOnce
import TrtLlm.KvCache.BufferLayout
import TrtLlm.KvCache.EventRuns
import TrtLlm.KvCache.RadixTree.Cleanup
import TrtLlm.KvCache.RadixTree.Lookup
import TrtLlm.KvCache.Sequence.Runs
import TrtLlm.KvCache.SlotAllocatorRuns
import TrtLlm.KvCache.Storage.Contracts
import TrtLlm.LlmApi.ThinkTagCuts
import TrtLlm.Scheduler.Admission.ConversationRouter
import TrtLlm.Scheduler.Admission.DefaultRouter
import TrtLlm.Scheduler.Admission.KvCacheAwareRouter
import TrtLlm.Scheduler.Admission.QueueRuns
import TrtLlm.Scheduler.CapacityCpp
import TrtLlm.Scheduler.CapacityGuarantee
import TrtLlm.Scheduler.ChunkingCpp
import TrtLlm.Scheduler.MicroBatchBudget
import TrtLlm.Scheduler.V2.Deadlock
import TrtLlm.Scheduler.V2.MmBlocks
import TrtLlm.Serve.Coordinator
import TrtLlm.Serve.Registration
import TrtLlm.Runtime.MoeLoadBalancer
import TrtLlm.Kernels.TreeSpecBuild
import TrtLlm.Kernels.SpecAccept
import TrtLlm.Kernels.GreedyVerify
import TrtLlm.KvCache.MaxSeqLen
import TrtLlm.KvCache.PendingStats
import TrtLlm.Sampling.Penalties
import TrtLlm.Sampling.TopP
