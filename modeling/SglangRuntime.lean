import SglangRuntime.Foundation.CommonPrefix
import SglangRuntime.Foundation.PagedMap
import SglangRuntime.Foundation.InverseTables
import SglangRuntime.Foundation.PageList
import SglangRuntime.Foundation.Trie
import SglangRuntime.Foundation.TriePath
import SglangRuntime.Foundation.TrieSearch
import SglangRuntime.Foundation.TrieContents
import SglangRuntime.MemCache.PagedAllocator
import SglangRuntime.MemCache.RadixKey
import SglangRuntime.MemCache.KeyWalk
import SglangRuntime.MemCache.RadixCache.Model
import SglangRuntime.MemCache.RadixCache.Invariant
import SglangRuntime.MemCache.RadixCache.Walk
import SglangRuntime.MemCache.RadixCache.Run
import SglangRuntime.MemCache.RadixCache.Refinement
import SglangRuntime.MemCache.Unified.Core
import SglangRuntime.MemCache.Unified.Lock
import SglangRuntime.MemCache.MultiEnded.Model
import SglangRuntime.MemCache.MultiEnded.Invariant
import SglangRuntime.MemCache.MultiEnded.Flush
import SglangRuntime.MemCache.MultiEnded.Operations
import SglangRuntime.MemCache.MultiEnded.Run
import SglangRuntime.Managers.PrefillAdder
import SglangRuntime.Managers.Scheduler
import SglangRuntime.Managers.PrefillConservation
import SglangRuntime.MemCache.KvPages.Model
import SglangRuntime.MemCache.KvPages.Tree
import SglangRuntime.MemCache.KvPages.Invariant
import SglangRuntime.MemCache.KvPages.Requests
import SglangRuntime.MemCache.KvPages.Run
import SglangRuntime.Foundation.TrieSpan
import SglangRuntime.MemCache.Session.Model
import SglangRuntime.MemCache.Session.Coverage
import SglangRuntime.MemCache.Session.Operations
import SglangRuntime.MemCache.Session.Run
import SglangRuntime.Foundation.HashChain
import SglangRuntime.Foundation.TrieOrder
import SglangRuntime.MemCache.PageHash.Model
import SglangRuntime.MemCache.PageHash.Invariant
import SglangRuntime.MemCache.PageHash.Operations
import SglangRuntime.MemCache.PageHash.Run
import SglangRuntime.Managers.FinishState
import SglangRuntime.Managers.FinishBatching
import SglangRuntime.MemCache.PagedPool.Model
import SglangRuntime.MemCache.PagedPool.Run
import SglangRuntime.Foundation.PageTable
import SglangRuntime.MemCache.SwaPool.Model
import SglangRuntime.MemCache.SwaPool.Rows
import SglangRuntime.MemCache.SwaPool.Invariant
import SglangRuntime.MemCache.SwaPool.Remap
import SglangRuntime.MemCache.SwaPool.Run
import SglangRuntime.Foundation.Rounding
import SglangRuntime.Managers.Admission.Model
import SglangRuntime.MemCache.RadixCache.Evictable
import SglangRuntime.Managers.Admission.Outcome
import SglangRuntime.Managers.Admission.FullPool
import SglangRuntime.Managers.Admission.Progress
import SglangRuntime.Router.HashTree
import SglangRuntime.Router.HashTreeInvariant
import SglangRuntime.MemCache.KvEventRecorder
import SglangRuntime.Router.Media
import SglangRuntime.Router.Mirror
import SglangRuntime.Router.Pump
import SglangRuntime.Router.PumpRun
import SglangRuntime.Foundation.TokenSearch
import SglangRuntime.Parser.Reasoning
import SglangRuntime.Parser.ReasoningChunks
import SglangRuntime.Eplb.Rebalance
import SglangRuntime.Eplb.FaultRun
import SglangRuntime.Eplb.ExpertUpdate
import SglangRuntime.Eplb.UpdatePlan
import SglangRuntime.Eplb.UpdateRun
import SglangRuntime.Foundation.Relocation
import SglangRuntime.MemCache.MultiEnded.Compaction
import SglangRuntime.Foundation.FirstMatch
import SglangRuntime.Foundation.Increments
import SglangRuntime.Parser.Qwen3Coder.Fence
import SglangRuntime.Parser.Qwen3Coder.Model
import SglangRuntime.Parser.Qwen3Coder.Chunks
import SglangRuntime.Parser.Qwen3Coder.Literal
import SglangRuntime.MemCache.MultiEnded.Capacity
import SglangRuntime.MemCache.MultiEnded.UnifiedSwa
import SglangRuntime.MemCache.MultiEnded.Inflight
import SglangRuntime.MemCache.SwaPool.Atomic
import SglangRuntime.Managers.Admission.IgnoreEos
import SglangRuntime.Managers.Admission.Preemption
import SglangRuntime.MemCache.AllocKernels
import SglangRuntime.MemCache.WindowEviction
import SglangRuntime.Session.ReqNodes
import SglangRuntime.Router.HashTreeEviction
import SglangRuntime.MemCache.FileEvictor
