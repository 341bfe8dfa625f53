import CS444.Lib.Bytes
import CS444.Lib.Crew
import CS444.Lib.Ledger
import CS444.Lib.Numerals
import CS444.Lib.Outcome
import CS444.Lib.Program
import CS444.Lib.RedoLog
import CS444.Lib.RingQueue
import CS444.Lib.Rings
import CS444.Lib.Runs
import CS444.Lib.Semaphores
import CS444.Lib.SpinLock
import CS444.Lib.Threads
import CS444.Lib.Tickets
import CS444.Lib.Token
import CS444.Lib.Windows
import CS444.Beavalloc.Alloc
import CS444.Beavalloc.Coalesce
import CS444.Beavalloc.FirstFit
import CS444.Beavalloc.Free
import CS444.Beavalloc.FreeBlock
import CS444.Beavalloc.Grow
import CS444.Beavalloc.Heap
import CS444.Beavalloc.Invariant
import CS444.Beavalloc.Pass
import CS444.Beavalloc.Placed
import CS444.Beavalloc.Realloc
import CS444.Beavalloc.Request
import CS444.Beavalloc.Reset
import CS444.Beavalloc.WellFormed
import CS444.Beavalloc.Wrappers
import CS444.Lottery.Dispatch
import CS444.Lottery.Fairness
import CS444.Lottery.Locks
import CS444.Lottery.Processes
import CS444.Lottery.Renice
import CS444.Lottery.Report
import CS444.Lottery.Scheduler
import CS444.Kthreads.Benny
import CS444.Kthreads.BodyStep
import CS444.Kthreads.Count
import CS444.Kthreads.Counters
import CS444.Kthreads.Denotes
import CS444.Kthreads.Family
import CS444.Kthreads.Handles
import CS444.Kthreads.Images
import CS444.Kthreads.Joins
import CS444.Kthreads.Killed
import CS444.Kthreads.Kin
import CS444.Kthreads.LifeCycle
import CS444.Kthreads.Parents
import CS444.Kthreads.Places
import CS444.Kthreads.Proc
import CS444.Kthreads.Reaping
import CS444.Kthreads.Running
import CS444.Kthreads.Sizes
import CS444.Kthreads.SleepLock
import CS444.Kthreads.Stacks
import CS444.Kthreads.Steps
import CS444.Kthreads.Tids
import CS444.Kthreads.Touch
import CS444.Kthreads.UserStack
import CS444.Kthreads.Va2pa
import CS444.Fs.Bcache
import CS444.Fs.Calls
import CS444.Fs.Conservation
import CS444.Fs.Console
import CS444.Fs.Contents
import CS444.Fs.Counts
import CS444.Fs.Cp
import CS444.Fs.Create
import CS444.Fs.Descriptors
import CS444.Fs.DirWrite
import CS444.Fs.Entries
import CS444.Fs.Erase
import CS444.Fs.File
import CS444.Fs.FileRefs
import CS444.Fs.FileRuns
import CS444.Fs.Flat
import CS444.Fs.Holders
import CS444.Fs.Inode
import CS444.Fs.InodeRefs
import CS444.Fs.InodeSteps
import CS444.Fs.Layout
import CS444.Fs.Link
import CS444.Fs.Links
import CS444.Fs.Log
import CS444.Fs.LogCrash
import CS444.Fs.LogSpace
import CS444.Fs.Midway
import CS444.Fs.Mv
import CS444.Fs.NameRefs
import CS444.Fs.Names
import CS444.Fs.Offsets
import CS444.Fs.Open
import CS444.Fs.OpenTrunc
import CS444.Fs.Opening
import CS444.Fs.Path
import CS444.Fs.PathRefs
import CS444.Fs.Pipe
import CS444.Fs.PipeCalls
import CS444.Fs.PipeEnds
import CS444.Fs.Plain
import CS444.Fs.Rebound
import CS444.Fs.Refs
import CS444.Fs.Room
import CS444.Fs.Seek
import CS444.Fs.SeekFrame
import CS444.Fs.Sizes
import CS444.Fs.Stat
import CS444.Fs.State
import CS444.Fs.Syscall
import CS444.Fs.SyscallRefs
import CS444.Fs.ThreadCounts
import CS444.Fs.ThreadFiles
import CS444.Fs.ThreadRuns
import CS444.Fs.Transfer
import CS444.Fs.Tree
import CS444.Fs.Truncate
import CS444.Fs.Ulib
import CS444.Fs.Unlink
import CS444.Fs.Walks
import CS444.Fs.Writes
import CS444.Grep.Lines
import CS444.Grep.Match
import CS444.Matmul.Counter
import CS444.Matmul.OsuLock
import CS444.Matmul.Owner
import CS444.Matmul.Rows
import CS444.Matmul.Static
import CS444.Philosophers.PhiloSem2
import CS444.Philosophers.PhiloSem3
import CS444.Philosophers.PhiloSem4
import CS444.Philosophers.Table
import CS444.Shell.Grammar
import CS444.Shell.Lexing
import CS444.Shell.Parser
import CS444.Shell.Parsing
import CS444.Shell.Printing
import CS444.Shell.Running
import CS444.Shell.Terminate
