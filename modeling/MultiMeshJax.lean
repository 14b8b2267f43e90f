import MultiMeshJax.ArgumentRecompute.Sound
import MultiMeshJax.BufferSchedulingName.LastUse
import MultiMeshJax.ColorDfs.Topological
import MultiMeshJax.Coloring.DepthOrder
import MultiMeshJax.Coloring.ExplicitColors
import MultiMeshJax.Coloring.Fixpoint
import MultiMeshJax.Coloring.HashOrder
import MultiMeshJax.ComputationFusion.Preserves
import MultiMeshJax.ComputationFusion.Terminates
import MultiMeshJax.ComputationGrouper.Preserves
import MultiMeshJax.ConcatenateGrouper.Faithful
import MultiMeshJax.CrossTaskBarrierRemover.Faithful
import MultiMeshJax.CutSizeMinimizer
import MultiMeshJax.Executable.FastPath
import MultiMeshJax.Executable.TempMemory
import MultiMeshJax.Executable.TempRegions
import MultiMeshJax.Foundation.IndexedDigits
import MultiMeshJax.Hlo.Copies
import MultiMeshJax.Hlo.Semantics
import MultiMeshJax.HloPartition.DeviceFidelity
import MultiMeshJax.HloPartition.Registry
import MultiMeshJax.InPlaceCollectives
import MultiMeshJax.InputOutputBufferAlias.EqualSizes
import MultiMeshJax.InsertReshard.Agreement
import MultiMeshJax.InstructionProperties.Accumulated
import MultiMeshJax.InstructionProperties.Additive
import MultiMeshJax.InstructionProperties.Backward
import MultiMeshJax.LogicalSharding.Terminates
import MultiMeshJax.LoopDependentSubmesh
import MultiMeshJax.LoopScheduler.CustomSchedule
import MultiMeshJax.LoopScheduler.Dependences
import MultiMeshJax.LoopScheduler.WavefrontCoverage
import MultiMeshJax.LoopScheduler.ZeroBubbleOrder
import MultiMeshJax.LoopUnroll.Clones
import MultiMeshJax.LoopUnroll.ControlEdges
import MultiMeshJax.LoopUnroll.Preserves
import MultiMeshJax.ShardMapLoopReduce.ChannelIds
import MultiMeshJax.Sharding.CanonicalFaithful
import MultiMeshJax.Sharding.IndexSet
import MultiMeshJax.Sharding.IotaSanitizer
import MultiMeshJax.Sharding.LogicalAxes
import MultiMeshJax.Sharding.ReplicateDims.Digits
import MultiMeshJax.Sharding.ReplicateDims.Pass
import MultiMeshJax.Sharding.ReplicateDims.Replicated
import MultiMeshJax.Sharding.ReplicateDims.Result
import MultiMeshJax.Sharding.Resize
import MultiMeshJax.ShardingPropagation
import MultiMeshJax.SimpleLoopIncrementColoring.Closed
import MultiMeshJax.Task.Microbatch
import MultiMeshJax.TaskSplitter.SplitComputation
import MultiMeshJax.UniquifyColors.Faithful
import MultiMeshJax.UnusedLoopOutputRemover.Preserves
