import Otsos.Disk.NvmeRing
import Otsos.Disk.Slice
import Otsos.Entity.Namespace
import Otsos.Entity.Rights
import Otsos.Entity.Runs
import Otsos.Event.Interests
import Otsos.Event.Timer
import Otsos.Event.Waits
import Otsos.Hive.Runs
import Otsos.Hivec.Correct
import Otsos.Ipc.Timeouts
import Otsos.Map.Unmap
import Otsos.Net.Endpoint
import Otsos.Net.UnixAccept
import Otsos.Page.Runs
import Otsos.Phys.Bootmem
import Otsos.Sched.SmpLock
import Otsos.Sync.FutexExact
import Otsos.Sync.LostWakeups
import Otsos.Sync.MutexRuns
import Otsos.Uma.Runs
import Otsos.User.Signals
import Otsos.Vfs.Resolve
