import MoeStream.Cache.Runs
import MoeStream.Cache.Loans
import MoeStream.Cache.Starvation
import MoeStream.Cache.Budget
import MoeStream.Cache.Pollution
import MoeStream.Loader.SkipLoad
import MoeStream.Slab.Exhaustion
import MoeStream.Slab.ReadsOnce
import MoeStream.Slab.Sweep
import MoeStream.Arena.Recorded
import MoeStream.Arena.RangeWhole
import MoeStream.Loader.IdsFit
import MoeStream.Loader.DenseSubstitutes
import MoeStream.Gguf.Streamable
import MoeStream.Loader.DenseSplit
import MoeStream.Loader.ShardPaths
import MoeStream.Graph.DenseLoad
import MoeStream.Learn.Progress
import MoeStream.Learn.Allocation
import MoeStream.Learn.Settles
import MoeStream.Learn.StateFile
import MoeStream.Learn.Selection
import MoeStream.Learn.Speculation
import MoeStream.Learn.SpecLearns
import MoeStream.Learn.PromptTokens
import MoeStream.Trace.Decodes
import MoeStream.Patch.Complete
import MoeStream.Foundation.Refinement
import MoeStream.Inference.Fits
import MoeStream.Arena.Inside
import MoeStream.Inference.Serves
import MoeStream.Inference.Total
import MoeStream.Inference.Loaded
import MoeStream.Foundation.Gather
import MoeStream.Foundation.Staged
import MoeStream.Arena.DenseInside
import MoeStream.Arena.DenseLoads
import MoeStream.Graph.DensePlan
import MoeStream.Inference.DenseStreamed
import MoeStream.Inference.DenseTotal
import MoeStream.Cache.Rows
import MoeStream.Slab.DecodeRows
import MoeStream.Slab.Ledger
import MoeStream.Slab.IoThreads
import MoeStream.Trace.Replay
import MoeStream.Trace.Predicts
import MoeStream.Foundation.LruStamps
import MoeStream.Trace.LruSim
import MoeStream.Cache.WorkingSet
import MoeStream.Cache.Scans
