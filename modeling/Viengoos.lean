import Viengoos.AsBuild.Pages
import Viengoos.AsWalk.Agree
import Viengoos.Kernel.Coverage
import Viengoos.Kernel.Stale
import Viengoos.Kernel.Revocation
import Viengoos.Kernel.Termination
import Viengoos.Kernel.CapCopy
import Viengoos.Kernel.SlotTypes
import Viengoos.Kernel.Quota
import Viengoos.Ipc.Protocol
import Viengoos.Ipc.RoundTrip
import Viengoos.Ipc.WakeOp
import Viengoos.Ipc.Waiting
import Viengoos.Zalloc.Pool
import Viengoos.Ihash
import Viengoos.Mm.FreeSpace
import Viengoos.Mm.Resolve
import Viengoos.Mm.Join
import Viengoos.Mutex
import Viengoos.Rmutex
import Viengoos.IntrusiveList.Runs
import Viengoos.Siblings
import Viengoos.Ager.Isolation
import Viengoos.ThreadIds
import Viengoos.Reservations
import Viengoos.SlabGrowth
import Viengoos.Codec
