import Microv.Theory.Doorbell
import Microv.Theory.DiskSemantics
import Microv.Theory.Confinement
import Microv.Theory.QueueArray
import Microv.Theory.SerialInterrupt
import Microv.Theory.FastPath
import Microv.Theory.DiskBounds
import Microv.Theory.ChainSafety
import Microv.Theory.HeaderIsolation
import Microv.Theory.ConfigIdentity
import Microv.Theory.Shutdown
import Microv.Theory.PageTable
import Microv.Theory.Mptable
import Microv.Theory.BusList
import Microv.Theory.Dispatch
import Microv.Theory.BarLaw
import Microv.Theory.Drain
import Microv.Theory.Announce
import Microv.Theory.Publication
import Microv.Theory.UsedLength
import Microv.Theory.MptableRefs
import Microv.Theory.RunLoop
import Microv.Theory.Registration
import Microv.Theory.VcpuSetup
import Microv.Theory.Descriptors
import Microv.Theory.SerialRegisters
import Microv.Theory.Console
import Microv.Theory.Handoff
import Microv.Theory.BlockSession
import Microv.Theory.SerialThreads
