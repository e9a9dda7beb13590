import ParallelArch.Concurrency.Machine
import ParallelArch.Concurrency.Threads
import ParallelArch.Concurrency.CallHistory
import ParallelArch.Concurrency.Lock
import ParallelArch.Queue.NonBlocking
import ParallelArch.Queue.Tickets
import ParallelArch.Queue.Delivery
import ParallelArch.Queue.Blocking
import ParallelArch.Queue.BoundedFifo
import ParallelArch.Concurrency.CondVar
import ParallelArch.Queue.Wakeups
import ParallelArch.Philosophers.Version4
import ParallelArch.Philosophers.Exclusion
import ParallelArch.Concurrency.Chain
import ParallelArch.LinkedList.Model
import ParallelArch.LinkedList.Shape
import ParallelArch.LinkedList.Invariant
import ParallelArch.LinkedList.Accounting
import ParallelArch.LinkedList.Pointers
import ParallelArch.LinkedList.Sequential
import ParallelArch.Queue.Sequential
import ParallelArch.Queue.Interchange
import ParallelArch.Benchmark.Failures
import ParallelArch.Sieve.Body
import ParallelArch.Sieve.Parallel
import ParallelArch.Queue.Progress
import ParallelArch.Philosophers.Seats
import ParallelArch.Philosophers.Version2
import ParallelArch.Philosophers.CircularWait
import ParallelArch.Philosophers.Lifetime
import ParallelArch.Philosophers.Schedule
import ParallelArch.LinkedList.Overlap
import ParallelArch.Benchmark.Workload
import ParallelArch.LinkedList.Permanence
import ParallelArch.Sieve.Checked
import ParallelArch.Containers.PriorityQueue
import ParallelArch.Sieve.Ranges
import ParallelArch.Sieve.Report
import ParallelArch.Benchmark.Pattern
import ParallelArch.Queue.Wrap
import ParallelArch.LinkedList.Ownership
import ParallelArch.Concurrency.Atomic
import ParallelArch.Queue.Linearizable
import ParallelArch.Containers.Probing
import ParallelArch.ModelChecker.HashTable
import ParallelArch.Graphs.Search
import ParallelArch.Graphs.Adjacent
import ParallelArch.Graphs.Constraints
import ParallelArch.ModelChecker.CycleGraph
import ParallelArch.ModelChecker.CycleNodes
import ParallelArch.ModelChecker.CycleChanges
import ParallelArch.ModelChecker.CycleConstraints
import ParallelArch.ModelChecker.Rollback
import ParallelArch.ModelChecker.ModificationOrder
import ParallelArch.Concurrency.LastAccess
import ParallelArch.ModelChecker.ClockVector
import ParallelArch.ModelChecker.Execution
import ParallelArch.ModelChecker.HappensBefore
import ParallelArch.ModelChecker.RaceRecord
import ParallelArch.ModelChecker.RaceOverflow
import ParallelArch.ModelChecker.ShadowMemory
import ParallelArch.ModelChecker.DataRaces
import ParallelArch.Sieve.TbbReport
