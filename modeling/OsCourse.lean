import OsCourse.UThread.AutoEvent
import OsCourse.Join.Deadlock
import OsCourse.Join.Builds
import OsCourse.Queue.Messages
import OsCourse.CtxSwitch.Dispatch
import OsCourse.TPool.Progress
import OsCourse.TPool.Destroy
import OsCourse.Barriers.Rounds
import OsCourse.Latch.Adder
import OsCourse.MemChan.Signals
import OsCourse.Echo.Answers
import OsCourse.SemQueue.Supply
import OsCourse.UThread.Batch
import OsCourse.Echo.Release
import OsCourse.Servers.Blocking
import OsCourse.Uv.Direct
import OsCourse.Lib.Compact
import OsCourse.Servers.SelectTable
import OsCourse.Servers.PollScan
import OsCourse.Servers.LoopBatch
import OsCourse.Servers.Leak
import OsCourse.Servers.Echoed
import OsCourse.UThread.ZeroUnits
import OsCourse.Join.Stale
import OsCourse.TPool.Barrier
import OsCourse.TPool.Nulls
import OsCourse.Latch.Segments
import OsCourse.Lib.Gather
import OsCourse.Latch.Totals
import OsCourse.Latch.Threads
import OsCourse.MemChan.Mapping
import OsCourse.Lib.Counted
import OsCourse.Servers.EpollSet
import OsCourse.Servers.MaxEvents
import OsCourse.Servers.ClosedIo
import OsCourse.Lib.Sweep
import OsCourse.Servers.Pass
import OsCourse.Servers.PollPass
import OsCourse.Servers.Served
import OsCourse.Lib.Ledger
import OsCourse.Uv.Blocks
import OsCourse.Lib.Linked
import OsCourse.Lists.Refinement
import OsCourse.MapTest.Summation
import OsCourse.UThread.Overflow
import OsCourse.CtxSwitch.Alignment
import OsCourse.SemQueue.Buffers
import OsCourse.Queue.Completion
import OsCourse.MemChan.Completion
import OsCourse.Lib.Custody
import OsCourse.QueuePool.Model
import OsCourse.QueuePool.Completion
import OsCourse.Intrusive.Programs
import OsCourse.Barriers.Phases
import OsCourse.TPool.Completion
import OsCourse.PoolServer.Served
import OsCourse.Echo.Completion
import OsCourse.Lib.Sections
import OsCourse.Race.Counter
import OsCourse.UThread.RoundRobin
import OsCourse.UThread.EventPrograms
import OsCourse.EchoFifo.Completion
