import Hallucinate.Fs.Socket
import Hallucinate.Drivers.BlkRuns
import Hallucinate.Drivers.Cache
import Hallucinate.Sched.Preempt
import Hallucinate.Sched.Sleep
import Hallucinate.Mm.BootMap
import Hallucinate.Mm.HeapCalls
import Hallucinate.Proc.ExecSpec
import Hallucinate.Proc.Lifecycle
import Hallucinate.Proc.Uaccess
import Hallucinate.Proc.Wait
import Hallucinate.Gfs.Crash
import Hallucinate.Gfs.Emptiness
import Hallucinate.Gfs.Geometry
import Hallucinate.Gfs.Loops
import Hallucinate.Gfs.Occupancy
import Hallucinate.Vfs.Append
import Hallucinate.Vfs.Norm
import Hallucinate.Vfs.Open
import Hallucinate.Vfs.Records
