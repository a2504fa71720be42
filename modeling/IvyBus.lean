import IvyBus.FifoRefinement
import IvyBus.Receive
import IvyBus.Socket.Lines
import IvyBus.Forgery
import IvyBus.Convergence
import IvyBus.Subscriptions
import IvyBus.WireLaws
import IvyBus.Loop
import IvyBus.LoopLaws
import IvyBus.Congestion
import IvyBus.DuplicatesLaws
import IvyBus.Crossed
import IvyBus.Supervision
import IvyBus.Ready
import IvyBus.Args
import IvyBus.Closing
import IvyBus.ClosingLaws
import IvyBus.Deletion
import IvyBus.Handles
import IvyBus.Lib.Cache
import IvyBus.OpenMp
import IvyBus.OpenMpLaws
import IvyBus.OpenMpRuns
import IvyBus.Lib.Chars
import IvyBus.Lib.Regexp
import IvyBus.IntervalRegexp
import IvyBus.IntervalRegexpLaws
import IvyBus.Timers
import IvyBus.TimersLaws
import IvyBus.Buffer
import IvyBus.BufferLaws
import IvyBus.Argv
import IvyBus.ArgvLaws
import IvyBus.Filter
import IvyBus.Interest
import IvyBus.InterestLaws
import IvyBus.Socket.Loss
import IvyBus.Pairing
import IvyBus.Raises
import IvyBus.PairingLaws
import IvyBus.Immediate
import IvyBus.Pointers
import IvyBus.PointersLaws
import IvyBus.Timeout
import IvyBus.Scanning
import IvyBus.Ping
import IvyBus.Builds
import IvyBus.Unique
import IvyBus.Rejected
import IvyBus.Ranges
import IvyBus.Blocks
import IvyBus.Intervals
import IvyBus.IntervalsLaws
import IvyBus.Bus
import IvyBus.BusLaws
import IvyBus.Formatted
import IvyBus.Nesting
import IvyBus.GreetingLaws
import IvyBus.WrapLaws
import IvyBus.DictionaryLaws
import IvyBus.Ledger
import IvyBus.Settling
import IvyBus.TimersMemory
import IvyBus.FilterMemory
import IvyBus.Discovery
import IvyBus.Connection
