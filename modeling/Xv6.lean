import Xv6.Lib.Run
import Xv6.Lib.SizedArray
import Xv6.Lib.Placed
import Xv6.Sched.Kernel
import Xv6.Sched.Wf
import Xv6.Sched.Rules
import Xv6.Sched.Queue
import Xv6.Sched.Stable
import Xv6.Sched.Arith
import Xv6.Fs.Block
import Xv6.Lib.RedoLog
import Xv6.Log.Model
import Xv6.Log.Wf
import Xv6.Log.Admission
import Xv6.Log.Stages
import Xv6.Log.Crash
import Xv6.Log.Sync
import Xv6.Log.Sleepers
import Xv6.Vm.Model
import Xv6.Sched.ForkFail
import Xv6.Threads.Kernel
import Xv6.Lib.Owned
import Xv6.Threads.Proc
import Xv6.Threads.Locks
import Xv6.Threads.Moves
import Xv6.Threads.Wf
import Xv6.Threads.Dirs
import Xv6.Threads.Ends
import Xv6.Threads.Table
import Xv6.Threads.Join
import Xv6.Threads.Space
import Xv6.Threads.Slices
import Xv6.Sched.Effects
import Xv6.Sched.Clock
import Xv6.Sched.Charge
import Xv6.Sched.Family
import Xv6.Sched.Reports
import Xv6.Lib.Fifo
import Xv6.Pipe.Model
import Xv6.Pipe.Order
import Xv6.Lib.Ring
import Xv6.Bio.Model
import Xv6.Bio.Wf
import Xv6.Bio.Coherence
import Xv6.Bio.Reads
import Xv6.Bio.Room
import Xv6.Sched.RoundRobin
import Xv6.Sched.Marks
import Xv6.Lib.Radix
import Xv6.Fs.Dinode
import Xv6.Fs.Model
import Xv6.Fs.Wf
import Xv6.Fs.Bmap
import Xv6.Fs.Io
import Xv6.Fs.Inv
import Xv6.Fs.Contents
import Xv6.Fs.Trunc
import Xv6.Fs.Calls
import Xv6.Fs.Stable
import Xv6.Fs.Dir
import Xv6.Fs.Paths
import Xv6.Fs.Refs
import Xv6.Vm.Frames
import Xv6.Vm.Grow
import Xv6.Vm.Copyout
import Xv6.Vm.Teardown
import Xv6.Vm.Exec
import Xv6.Lib.Slots
import Xv6.Fs.Entries
import Xv6.Fs.DirMap
import Xv6.Lib.Overwrite
import Xv6.Fs.Files
import Xv6.Fs.File
import Xv6.Fs.Positional
import Xv6.Fs.Runs
import Xv6.Lib.Simulate
import Xv6.Fs.Refine
import Xv6.Fs.Release
