import CShellXv6.Library.Transition
import CShellXv6.Library.RightLinear
import CShellXv6.Library.Sweep
import CShellXv6.Library.SpinLock
import CShellXv6.Library.Solo
import CShellXv6.Library.OneProcessor
import CShellXv6.Library.Descriptors
import CShellXv6.Library.Search
import CShellXv6.Library.Ranking
import CShellXv6.Library.FirstSeen
import CShellXv6.Library.Paths
import CShellXv6.Library.Protocol
import CShellXv6.Library.Ring
import CShellXv6.Library.LittleEndian
import CShellXv6.Library.Monitor
import CShellXv6.Library.Bitmap
import CShellXv6.Shell.Token
import CShellXv6.Shell.Lexer
import CShellXv6.Shell.Quoting
import CShellXv6.Shell.Scan
import CShellXv6.Shell.Parser
import CShellXv6.Shell.Grammar
import CShellXv6.Shell.Split
import CShellXv6.Shell.Builtins
import CShellXv6.Shell.Executor
import CShellXv6.Shell.Segments
import CShellXv6.Shell.Units
import CShellXv6.Shell.Stages
import CShellXv6.Shell.Limits
import CShellXv6.Shell.Routing
import CShellXv6.Shell.WordReads
import CShellXv6.Shell.Feeder
import CShellXv6.Shell.Tee
import CShellXv6.Shell.Copying
import CShellXv6.Shell.Resumption
import CShellXv6.Shell.Handshake
import CShellXv6.Shell.Process
import CShellXv6.Shell.Foreground
import CShellXv6.Shell.Jobs
import CShellXv6.Shell.JobTable
import CShellXv6.Shell.Children
import CShellXv6.Shell.Leader
import CShellXv6.Shell.Completion
import CShellXv6.Shell.Calls
import CShellXv6.Shell.Session
import CShellXv6.Shell.MainLoop
import CShellXv6.Shell.LineAssembly
import CShellXv6.Shell.Launch
import CShellXv6.Shell.Plumbing
import CShellXv6.Shell.Restore
import CShellXv6.Shell.Persist
import CShellXv6.Shell.Effects
import CShellXv6.Shell.Commands
import CShellXv6.Shell.CommandText
import CShellXv6.Shell.Sequence
import CShellXv6.Shell.Tracking
import CShellXv6.Shell.FailedForks
import CShellXv6.Shell.Identity
import CShellXv6.Shell.Lifecycle
import CShellXv6.Shell.Resolve
import CShellXv6.Shell.Candidates
import CShellXv6.Shell.History
import CShellXv6.Shell.Frecency
import CShellXv6.Shell.Hop
import CShellXv6.Shell.Reveal
import CShellXv6.Shell.Numbers
import CShellXv6.Shell.Peek
import CShellXv6.Shell.Numbering
import CShellXv6.Shell.Snoop
import CShellXv6.Shell.Summary
import CShellXv6.Shell.Mappings
import CShellXv6.Kernel.Proc
import CShellXv6.Kernel.Trap
import CShellXv6.Kernel.LockOrder
import CShellXv6.Kernel.Uniprocessor
import CShellXv6.Kernel.Sections
import CShellXv6.Kernel.Priority
import CShellXv6.Kernel.Starvation
import CShellXv6.Kernel.Harts
import CShellXv6.Kernel.Boost
import CShellXv6.Kernel.Life
import CShellXv6.Kernel.Conduct
import CShellXv6.Kernel.Fifo
import CShellXv6.Kernel.Response
import CShellXv6.Kernel.Turnaround
import CShellXv6.Kernel.Accounting
import CShellXv6.Kernel.Selection
import CShellXv6.Kernel.ProcNumbers
import CShellXv6.Kernel.CreationOrder
import CShellXv6.Kernel.Waitx
import CShellXv6.FileSystem.Bio
import CShellXv6.FileSystem.Coherence
import CShellXv6.FileSystem.Buffers
import CShellXv6.FileSystem.Log
import CShellXv6.FileSystem.CrashSafety
import CShellXv6.FileSystem.Transactions
import CShellXv6.Kernel.Sleeplock
import CShellXv6.Kernel.Pipe
import CShellXv6.FileSystem.LogWaiting
import CShellXv6.FileSystem.Blocks
import CShellXv6.FileSystem.Inodes
import CShellXv6.FileSystem.Contents
import CShellXv6.Library.Segments
import CShellXv6.FileSystem.ReadWrite
import CShellXv6.FileSystem.Calls
import CShellXv6.Kernel.Vm
