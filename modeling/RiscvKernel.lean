import RiscvKernel.Exec.Accesses
import RiscvKernel.Exec.Verdict
import RiscvKernel.Memory.Allocator
import RiscvKernel.Memory.Spaces
import RiscvKernel.Memory.Translation
import RiscvKernel.Sync.Progress
import RiscvKernel.System.Consistency
import RiscvKernel.System.Input
import RiscvKernel.System.Stacks
import RiscvKernel.System.SpaceLayout
import RiscvKernel.System.Capacity
import RiscvKernel.System.Clock
import RiscvKernel.Console.Uart
import RiscvKernel.Shell.LineEditor
import RiscvKernel.Shell.Command
import RiscvKernel.System.Halting
import RiscvKernel.System.Alone
import RiscvKernel.Memory.IdentityMap
import RiscvKernel.Shell.Session
import RiscvKernel.System.Start
