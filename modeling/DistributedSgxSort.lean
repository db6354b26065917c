import DistributedSgxSort.Elem
import DistributedSgxSort.Layout
import DistributedSgxSort.Compact
import DistributedSgxSort.Shuffle
import DistributedSgxSort.Marking
import DistributedSgxSort.Threading
import DistributedSgxSort.Barrier
import DistributedSgxSort.WorkerPool
import DistributedSgxSort.PoolShutdown
import DistributedSgxSort.Memory
import DistributedSgxSort.Mergesort
import DistributedSgxSort.AssignRandomId
import DistributedSgxSort.MergePass
import DistributedSgxSort.MergePassStable
import DistributedSgxSort.MergesortCorrect
import DistributedSgxSort.Network
import DistributedSgxSort.Quickselect
import DistributedSgxSort.QuickselectNet
import DistributedSgxSort.QuickselectPartition
import DistributedSgxSort.QuickselectCorrect
import DistributedSgxSort.SamplePartition
import DistributedSgxSort.SamplePartitionInv
import DistributedSgxSort.SamplePartitionRun
import DistributedSgxSort.NonobliviousSort
import DistributedSgxSort.SampleSort
import DistributedSgxSort.HostCheck
import DistributedSgxSort.OcallMpi
