import Peps.Agg.Bits
import Peps.Agg.GroupOrder
import Peps.Agg.Parallel
import Peps.Agg.Receive
import Peps.Agg.State
import Peps.Dbocg.Additions
import Peps.Dbocg.Broadcast
import Peps.Dbocg.Const
import Peps.Dbocg.ConvSizes
import Peps.Dbocg.Graph
import Peps.Dbocg.GraphCost
import Peps.Dbocg.GraphEdges
import Peps.Dbocg.GraphOrder
import Peps.Dbocg.GraphWellFormed
import Peps.Dbocg.Layouts
import Peps.Dbocg.LoadOnnx
import Peps.Dbocg.Match
import Peps.Dbocg.Model
import Peps.Dbocg.ModelCalls
import Peps.Dbocg.ModelIssue
import Peps.Dbocg.ModelTransparent
import Peps.Dbocg.Nudf
import Peps.Dbocg.NudfMeaning
import Peps.Dbocg.NudfScope
import Peps.Dbocg.NudfSound
import Peps.Dbocg.NudfStep
import Peps.Dbocg.NudfTables
import Peps.Dbocg.OnnxConv
import Peps.Dbocg.OnnxGemm
import Peps.Dbocg.OnnxGraph
import Peps.Dbocg.Op
import Peps.Dbocg.OperatorOrder
import Peps.Dbocg.Optimize
import Peps.Dbocg.OptimizeSound
import Peps.Dbocg.PartialMatch
import Peps.Dbocg.PatternConstraints
import Peps.Dbocg.PoolExport
import Peps.Dbocg.PreprocessWeights
import Peps.Dbocg.Reshape
import Peps.Dbocg.RewriteSound
import Peps.Dbocg.RuleLoader
import Peps.Dbocg.RuleRewrites
import Peps.Dbocg.Search
import Peps.Dbocg.Serialize
import Peps.Dbocg.Session
import Peps.Dbocg.Splits
import Peps.Dbocg.Substitution
import Peps.Dbocg.Tensor
import Peps.Dbocg.TensorShape
import Peps.Extended.BatchNorm
import Peps.Extended.ConcatArray
import Peps.Extended.SplitArray
import Peps.Kernel.AxisConv
import Peps.Kernel.ConvCorrect
import Peps.Kernel.FastPath
import Peps.Kernel.Frame
import Peps.Kernel.FusedPool
import Peps.Kernel.GroupConv
import Peps.Kernel.Im2col
import Peps.Kernel.Im2colOrder
import Peps.Kernel.IntSizes
import Peps.Kernel.Kernels
import Peps.Kernel.MatrixIm2col
import Peps.Kernel.Pooling
import Peps.Kernel.PoolingSizes
import Peps.Kernel.SsePool
import Peps.Kernel.TextConv
import Peps.Lib.Backtrack
import Peps.Lib.BestFirst
import Peps.Lib.Bindings
import Peps.Lib.Bitmap
import Peps.Lib.Cells
import Peps.Lib.Equations
import Peps.Lib.Grids
import Peps.Lib.HashCons
import Peps.Lib.Kahn
import Peps.Lib.LinkedHeap
import Peps.Lib.Loops
import Peps.Lib.Lru
import Peps.Lib.Outcome
import Peps.Lib.Shapes
import Peps.Lib.SortedMap
import Peps.Lib.Stores
import Peps.Lib.Tally
import Peps.Lib.Transducer
import Peps.Lib.Windows
import Peps.Lib.Wire
import Peps.Lib.WrapInt
import Peps.Parser.FindCall
import Peps.Parser.Kept
import Peps.Parser.Lexer
import Peps.Parser.Rewrite
import Peps.Pg.ArrayType
import Peps.Pool.ExportWeights
import Peps.Pool.LoadFailure
import Peps.Pool.LoadModel
import Peps.Pool.LruCache
import Peps.Pool.PoolLife
import Peps.Pool.PoolMemory
import Peps.Pool.WeightPool
