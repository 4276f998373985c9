import SamplePrograms.Library.Memory
import SamplePrograms.Library.Loops
import SamplePrograms.Library.Ring
import SamplePrograms.Library.ShortestPath
import SamplePrograms.Library.Ledger
import SamplePrograms.Library.Threads
import SamplePrograms.Library.LockDiscipline
import SamplePrograms.Library.ThreadInvariants
import SamplePrograms.Library.ThreadSchedule
import SamplePrograms.Library.ThreadWakeups
import SamplePrograms.Library.CallSequences
import SamplePrograms.Library.EventRuns
import SamplePrograms.Library.FirstOfKey
import SamplePrograms.Library.Stdio
import SamplePrograms.Library.Doubles
import SamplePrograms.Library.ForLoop
import SamplePrograms.Library.Bounds
import SamplePrograms.Library.BoundedArray
import SamplePrograms.Library.Rearrange
import SamplePrograms.Library.BreakLoop
import SamplePrograms.Library.HarmonicMean
import SamplePrograms.Library.Arrangements
import SamplePrograms.RwLock.Model
import SamplePrograms.RwLock.Exclusion
import SamplePrograms.RwLock.Wakeup
import SamplePrograms.FifoRwLock.Model
import SamplePrograms.FifoRwLock.Exclusion
import SamplePrograms.FifoRwLock.Wakeup
import SamplePrograms.JobQueue.Jobs
import SamplePrograms.JobQueue.CondVModel
import SamplePrograms.JobQueue.CondVAccounting
import SamplePrograms.JobQueue.CondVPopSection
import SamplePrograms.JobQueue.CondVProgress
import SamplePrograms.JobQueue.CondVEnqueueSection
import SamplePrograms.JobQueue.CondVMain
import SamplePrograms.JobQueue.SemModel
import SamplePrograms.JobQueue.SemAccounting
import SamplePrograms.ListQueue.Model
import SamplePrograms.ListQueue.Fifo
import SamplePrograms.ListQueue.Links
import SamplePrograms.RingBuffer.Model
import SamplePrograms.RingBuffer.Refinement
import SamplePrograms.RingBuffer.Fifo
import SamplePrograms.RingBuffer.Acceptance
import SamplePrograms.Discovery.RecvQueue
import SamplePrograms.Discovery.Rows
import SamplePrograms.Discovery.Display
import SamplePrograms.Discovery.Ui
import SamplePrograms.Discovery.Button
import SamplePrograms.Discovery.Lifecycle
import SamplePrograms.Discovery.Cancellation
import SamplePrograms.Elbonian.Model
import SamplePrograms.Elbonian.Worklist
import SamplePrograms.Elbonian.WorklistCalls
import SamplePrograms.Elbonian.Graph
import SamplePrograms.Elbonian.Search
import SamplePrograms.Elbonian.ShortestPaths
import SamplePrograms.Elbonian.AnyGraph
import SamplePrograms.Elbonian.Route
import SamplePrograms.Elbonian.PeerLists
import SamplePrograms.Elbonian.BuildGraph
import SamplePrograms.Elbonian.SelfLoops
import SamplePrograms.Elbonian.Input
import SamplePrograms.CdpWalker.Relations
import SamplePrograms.CdpWalker.Neighbors
import SamplePrograms.CdpWalker.Rows
import SamplePrograms.CdpWalker.Addresses
import SamplePrograms.BloodGroup.Model
import SamplePrograms.BloodGroup.Independence
import SamplePrograms.BloodGroup.Lookups
import SamplePrograms.BloodGroup.MarkerSets
import SamplePrograms.Change.Model
import SamplePrograms.Change.Coins
import SamplePrograms.Change.ThreeBins
import SamplePrograms.Change.FindSolution
import SamplePrograms.Change.Answers
import SamplePrograms.Quicksort.Model
import SamplePrograms.Quicksort.Partition
import SamplePrograms.Quicksort.Sorted
import SamplePrograms.BandhAnalysis.Model
import SamplePrograms.BandhAnalysis.LostDays
import SamplePrograms.VipCalculator.Model
import SamplePrograms.VipCalculator.Purchases
import SamplePrograms.VipCalculator.Returns
import SamplePrograms.VipCalculator.Limits
import SamplePrograms.Improbability.Model
import SamplePrograms.Improbability.Distances
import SamplePrograms.Improbability.Answers
import SamplePrograms.Icmp.Checksum
import SamplePrograms.Icmp.Messages
import SamplePrograms.Icmp.Timestamp
import SamplePrograms.Icmp.AddressMask
import SamplePrograms.Traceroute.Lines
import SamplePrograms.Traceroute.PathMtu
import SamplePrograms.Traceroute.Route
import SamplePrograms.Traceroute.SourceRoute
import SamplePrograms.Sock.Crlf
import SamplePrograms.Sock.Loop
import SamplePrograms.Sock.Server
import SamplePrograms.BloodGroup.Children
import SamplePrograms.BloodGroup.Inheritance
import SamplePrograms.CdpWalker.Network
import SamplePrograms.Elbonian.Program
import SamplePrograms.JobQueue.SemCompletion
import SamplePrograms.RwLock.Termination
import SamplePrograms.EjbTest.Model
import SamplePrograms.EjbTest.Report
import SamplePrograms.EjbTest.Verdict
