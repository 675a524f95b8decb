import Svod.MemoryPlanner.Pool
import Svod.Runtime.LevelingSound
import Svod.Runtime.GraphHazards
import Svod.Ir.RewriteEngineSound
import Svod.Arch.RnntSound
import Svod.MemoryPlanner.Budget
import Svod.Symbolic.ComparisonSound
import Svod.Symbolic.FastDivSound
import Svod.Symbolic.Narrowing
import Svod.Symbolic.ReassociationSound
import Svod.Symbolic.InvalidGateSound
import Svod.Runtime.RelocationsSound
import Svod.Tensor.RandomBits
import Svod.Tensor.SingleflightSound
import Svod.Device.LruAllocatorSound
import Svod.Late.GaterSound
import Svod.Tensor.PoolAdjoint
import Svod.Device.SdmaRingSound
import Svod.Tensor.NdIndexingSound
import Svod.Runtime.RuntimeVarsSound
import Svod.Device.ClikeKernargSound
import Svod.Device.NativeSubmissionsSound
import Svod.Late.GpuDimsSound
import Svod.Late.StrengthReductionSound
import Svod.Rangeify.SelfReadSound
import Svod.Rangeify.SplitReduceSound
import Svod.Rangeify.ReduceSimplifySound
import Svod.Rangeify.SplitRangesSound
import Svod.Arch.SegmentsSound
import Svod.Arch.CtcSound
import Svod.Arch.VadCover
import Svod.Arch.SpeakerStream
import Svod.Arch.CtcBeamSound
import Svod.Arch.TextTruncation
import Svod.Late.ExpandSound
import Svod.Ir.ConstFoldSound
import Svod.Tk.NearestSound
import Svod.Tk.ScalarBounds
import Svod.Arch.TextScoresSound
import Svod.FloatBitsSound
