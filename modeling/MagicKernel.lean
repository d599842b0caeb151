import MagicKernel.SchedPrio
import MagicKernel.SchedSlice
import MagicKernel.SchedQueue
import MagicKernel.SchedRequest
import MagicKernel.SchedSeconds
import MagicKernel.SchedVanilla
import MagicKernel.WandSafety
import MagicKernel.WandHealth
import MagicKernel.WandStrings
import MagicKernel.WandTheft
import MagicKernel.WandTwin
import MagicKernel.WandAtomic
import MagicKernel.WandVictims
import MagicKernel.RepeatedIsolation
import MagicKernel.RepeatedBlocks
import MagicKernel.RepeatedOverlap
import MagicKernel.ForkLadder
import MagicKernel.RepeatedSeeks
import MagicKernel.RepeatedFailures
import MagicKernel.SchedSignal
import MagicKernel.WandOrder
import MagicKernel.WandBuffer
import MagicKernel.PointerLists
import MagicKernel.ProcModel
import MagicKernel.ProcLinks
import MagicKernel.ProcSignals
import MagicKernel.ProcPids
import MagicKernel.ProcSound
import MagicKernel.ProcFork
import MagicKernel.ProcExit
import MagicKernel.ProcWait
import MagicKernel.ProcCalls
import MagicKernel.ProcRuns
import MagicKernel.ProcNumbers
import MagicKernel.ProcSessions
import MagicKernel.ProcAlerts
import MagicKernel.ProcLedger
