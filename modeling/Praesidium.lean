import Praesidium.CapCore.MdbProvenance
import Praesidium.System.Reclaim
import Praesidium.Abi.EncodeSpec
import Praesidium.CapCore.ZeroingExact
import Praesidium.Kernel.UserNotify
import Praesidium.Kernel.ProcessReap
import Praesidium.Kernel.MemoryKinds
import Praesidium.Kernel.SchedulerReap
import Praesidium.Mem.BuddyLayout
import Praesidium.Sched.RunUntilIdle
import Praesidium.System.SchedIds
import Praesidium.Kernel.UserAuthority
import Praesidium.Kernel.LoaderEffects
import Praesidium.Ipc.NotificationRun
import Praesidium.Mem.SlabRun
import Praesidium.Kernel.PageEdits
import Praesidium.Kernel.SchedulerFair
import Praesidium.Kernel.Switch
import Praesidium.Kernel.IpcWake
