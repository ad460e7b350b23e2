import Os161.SfsRetry
import Os161.LockHeap
import Os161.Console
import Os161.StoplightTrace
import Os161.Emufs
import Os161.LhdRequests
import Os161.SfsTruncateExact
import Os161.VmRegions
import Os161.VehicleFifo
import Os161.VehiclePriority
import Os161.ThreadFork
import Os161.VfsBoot
import Os161.LoadBytes
import Os161.SfsStored
import Os161.VfsFailedOpen
import Os161.QueueFifo
import Os161.PtrArray
import Os161.CopyInOut
import Os161.UioExact
import Os161.Pseudorand
import Os161.Ltimer
import Os161.Lamebus
import Os161.Strtok
import Os161.Snprintf
import Os161.AsCopy
