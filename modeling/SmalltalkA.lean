import SmalltalkA.Compiler.JumpTargets
import SmalltalkA.Compiler.CaptureAgreement
import SmalltalkA.Interpreter.FutureWait
import SmalltalkA.Interpreter.OwnActor
import SmalltalkA.Scheduler.Termination
import SmalltalkA.Scheduler.Delivery
import SmalltalkA.Scheduler.Deque
import SmalltalkA.Scheduler.Wakeup
import SmalltalkA.Scheduler.References
import SmalltalkA.Actor.Ask
import SmalltalkA.Actor.Reply
import SmalltalkA.Actor.CrashNotices
import SmalltalkA.Interpreter.StackEffect
import SmalltalkA.Gc.VmReferences
import SmalltalkA.Compiler.WholeInput
import SmalltalkA.Compiler.RoundTrip
import SmalltalkA.Compiler.QuotedLiterals
import SmalltalkA.Interpreter.BlockArity
import SmalltalkA.Interpreter.OwnAllocations
import SmalltalkA.Interpreter.Cascades
import SmalltalkA.Vm.SymbolStrings
import SmalltalkA.Gc.Scanners
import SmalltalkA.Gc.Exact
import SmalltalkA.Gc.GrowExact
import SmalltalkA.Actor.MailboxCounter
import SmalltalkA.Actor.RestartIntensity
import SmalltalkA.Bootstrap.Filein
import SmalltalkA.Kernel.Collections
import SmalltalkA.Kernel.Strings
