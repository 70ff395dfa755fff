import Bugnes.HookTables
import Bugnes.InstrFrame
import Bugnes.Flags
import Bugnes.Transfers
import Bugnes.Sequential
import Bugnes.MultiByte
import Bugnes.StoreLoad
import Bugnes.StackRefinement
import Bugnes.Subroutines
import Bugnes.Registration
import Bugnes.PpuPort
import Bugnes.Tracing
import Bugnes.Sessions
import Bugnes.RamMirror
import Bugnes.ControlShadows
import Bugnes.FramebufferShadow
import Bugnes.Increments
import Bugnes.Accesses
import Bugnes.PowerLoops
import Bugnes.Acceptance
import Bugnes.OverflowFlag
import Bugnes.Operands
import Bugnes.Shifts
import Bugnes.PpuRoundTrip
import Bugnes.Loading
import Bugnes.MirrorLaw
import Bugnes.SimpleHooks
import Bugnes.WordWrites
import Bugnes.Loaders
import Bugnes.PpuLoad
import Bugnes.MultiShift
import Bugnes.CompareBranch
import Bugnes.StepRecord
import Bugnes.TraceLine
import Bugnes.InstrStores
import Bugnes.StepReport
import Bugnes.BitFields
import Bugnes.PpuRegisters
import Bugnes.PpuReplaced
import Bugnes.MachineSafety
import Bugnes.MirrorInert
import Bugnes.Stepping
import Bugnes.Locality
import Bugnes.Display
import Bugnes.Keyboard
import Bugnes.Mos6502
import Bugnes.Reference
import Bugnes.CallStack
import Bugnes.Lines
import Bugnes.MemhookDump
import Bugnes.TestReports
import Bugnes.MacroAssembler
import Bugnes.TestPrograms
import Bugnes.PrintedTrace
