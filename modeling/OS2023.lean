import OS2023.Lib.Loops
import OS2023.Lib.Ring
import OS2023.Lib.FrameList
import OS2023.Lib.Belady
import OS2023.Lib.Recency
import OS2023.Lib.Clock
import OS2023.Lib.Rotation
import OS2023.Lib.Conservative
import OS2023.Lib.Competitive
import OS2023.Lib.ClockWindow
import OS2023.Lib.Reversal
import OS2023.Lib.Machine
import OS2023.Lib.Scan
import OS2023.Lib.Format
import OS2023.Lib.Buffer
import OS2023.Lib.Printf
import OS2023.Lib.Decimal
import OS2023.Paging.Queue
import OS2023.Paging.QueueRuns
import OS2023.Paging.Simulator
import OS2023.Paging.Memory
import OS2023.Paging.Service
import OS2023.Paging.Fifo
import OS2023.Paging.Optimal
import OS2023.Paging.Lru
import OS2023.Paging.SecondChance
import OS2023.Paging.Run
import OS2023.Paging.Consistency
import OS2023.Paging.Demand
import OS2023.Paging.Optimality
import OS2023.Paging.Refinement
import OS2023.Paging.ReferenceBits
import OS2023.Paging.Inclusion
import OS2023.Paging.Victims
import OS2023.Paging.Windows
import OS2023.Paging.Competitive
import OS2023.Paging.Totals
import OS2023.Paging.Lockstep
import OS2023.Paging.Program
import OS2023.Paging.Output
import OS2023.Paging.Files
import OS2023.Paging.Session
import OS2023.Sched.Scheduler
import OS2023.Sched.Burst
import OS2023.Sched.Stamps
import OS2023.Sched.Exit
import OS2023.Sched.Log
import OS2023.Sched.TestProgram
import OS2023.Sched.Elapsed
import OS2023.Sched.Duration
import OS2023.Sched.Attributes
import OS2023.Sched.Requests
import OS2023.Sched.Entitlement
import OS2023.Sched.Reported
import OS2023.Sched.Children
import OS2023.Calc.Calculator
import OS2023.Calc.Grammar
import OS2023.Calc.Framing
import OS2023.Calc.Arithmetic
import OS2023.Calc.Transcript
import OS2023.Ps.Terminal
import OS2023.Ps.Stat
import OS2023.Ps.Listing
