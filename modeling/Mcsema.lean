import Mcsema.IR.Module
import Mcsema.IR.Rewrite
import Mcsema.IR.Semantics
import Mcsema.IR.Simulation
import Mcsema.IR.Threading
import Mcsema.BC.Instruction
import Mcsema.BC.Optimize.Intrinsics
import Mcsema.BC.Optimize.ISEL
import Mcsema.BC.Optimize.Barrier
import Mcsema.BC.Optimize.Undef
import Mcsema.BC.Optimize.UndefRun
import Mcsema.BC.Optimize.MemOps
import Mcsema.BC.Optimize.MemOpsRun
import Mcsema.BC.Optimize.LowerMemOps
import Mcsema.BC.Optimize.Calls
import Mcsema.BC.Optimize.Pipeline
