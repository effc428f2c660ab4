import Vectorization.PlannedEvaluation
import Vectorization.ContiguousEvaluation
import Vectorization.Injectivity
import Vectorization.AtomicAssignment
import Vectorization.SizesAndStridesRefinement
import Vectorization.TensorRun
import Vectorization.SliceSemantics
import Vectorization.IdenticalMappings
import Vectorization.AmbientStream
import Vectorization.GpuExtrema
import Vectorization.Functors
import Vectorization.HorizontalExtrema
import Vectorization.ExactCounts
import Vectorization.ReshapeSemantics
import Vectorization.ViewInjectivity
import Vectorization.FlatLowering
import Vectorization.BroadcastJoin
import Vectorization.ElementCounts
import Vectorization.Scatter
import Vectorization.MetalReduction
import Vectorization.Staging
import Vectorization.SizesAndStridesEquality
import Vectorization.PlanOverflow
import Vectorization.StrideArithmetic
import Vectorization.MetalFusion
import Vectorization.GpuEvaluation
import Vectorization.PortableProgram
import Vectorization.ExpressionConstruct
import Vectorization.TensorSession
import Vectorization.MetalEvaluation
