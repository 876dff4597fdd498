import ThreadUtils.Transition.System
import ThreadUtils.Transition.Accounting
import ThreadUtils.Transition.Fifo
import ThreadUtils.DataStructures.SizeT
import ThreadUtils.DataStructures.FiniteLockFreeQueue.Tickets
import ThreadUtils.DataStructures.LockFreeQueue.Refinement
import ThreadUtils.TaskManager.NotStranded
import ThreadUtils.TaskManager.WaitCompletion
import ThreadUtils.Dfg.Stranded
import ThreadUtils.Dfg.WaitResult
import ThreadUtils.Dfg.Schedule
import ThreadUtils.Tools.AsyncWorker.PendingJob
import ThreadUtils.Tools.ThreadPool.Completion
import ThreadUtils.Shutdown
import ThreadUtils.DataStructures.FiniteOverflowQueue.Drain
import ThreadUtils.Dfg.Builder.Registration
import ThreadUtils.Dfg.Builder.Sink
import ThreadUtils.Dfg.Builder.Copies
import ThreadUtils.Dgemm.Exact
import ThreadUtils.DataStructures.CacheQueue
import ThreadUtils.DataStructures.FiniteLockFreeQueue.BoundedFifo
import ThreadUtils.DataStructures.FiniteLockFreeQueue.FailureAnswers
import ThreadUtils.Tools.ThreadPool.Retirement
import ThreadUtils.Dfg.Builder.Rejection
import ThreadUtils.DataStructures.LockFreeQueue.NodePool
import ThreadUtils.DataStructures.LockFreeQueue.Partition
import ThreadUtils.Dfg.Builder.AllOrNothing
import ThreadUtils.Dfg.Builder.Interface
import ThreadUtils.Dfg.Builder.BoundaryAgreement
import ThreadUtils.Dfg.Builder.SubGraphOrder
import ThreadUtils.Mpi.CommBufferPool
import ThreadUtils.Mpi.CommTask
import ThreadUtils.DataStructures.ProfiledQueue
import ThreadUtils.Dfg.Profiling
import ThreadUtils.Dfg.LifeCycle
import ThreadUtils.Semaphores
import ThreadUtils.Dfg.Meaning
import ThreadUtils.DataStructures.FiniteLockFreeQueue.LockFree
import ThreadUtils.DataStructures.LockFreeQueue.LockFree
import ThreadUtils.Mpi.Cluster.Deadlock
import ThreadUtils.DataStructures.FiniteOverflowQueue.LockFree
import ThreadUtils.TaskManager.Group.Drains
import ThreadUtils.DataStructures.LockFreeQueue.Atomic
import ThreadUtils.Dfg.Builder.Destroy
