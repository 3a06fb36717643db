import Xv6.Lib.Machine
import Xv6.Lib.Pool
import Xv6.Lib.Links
import Xv6.Lib.Bytes
import Xv6.Lib.Ledger
import Xv6.Lib.Slots
import Xv6.Lib.Crowd
import Xv6.Lib.Ring
import Xv6.Proc.Basic
import Xv6.Proc.Impl.Ptable
import Xv6.Proc.Impl.Step
import Xv6.Proc.Lemmas.Step
import Xv6.Proc.Lemmas.Ptable
import Xv6.Proc.Lemmas.Lifecycle
import Xv6.Proc.Lemmas.Moves
import Xv6.Proc.Accounting
import Xv6.Proc.Agree
import Xv6.Proc.Preempt
import Xv6.Proc.Killed
import Xv6.Proc.Wait
import Xv6.Proc.Lineage
import Xv6.Proc.RoundRobin
import Xv6.Proc.Quantum
import Xv6.Vm.Basic
import Xv6.Vm.Impl.Vm
import Xv6.Vm.Impl.Exec
import Xv6.Vm.Impl.Step
import Xv6.Vm.Impl.Report
import Xv6.Vm.Impl.Table
import Xv6.Vm.Lemmas.Basic
import Xv6.Vm.Lemmas.Map
import Xv6.Vm.Lemmas.Dealloc
import Xv6.Vm.Lemmas.Alloc
import Xv6.Vm.Lemmas.Setup
import Xv6.Vm.Lemmas.Cost
import Xv6.Vm.Lemmas.Copy
import Xv6.Vm.Lemmas.Exec
import Xv6.Vm.Lemmas.State
import Xv6.Vm.Lemmas.Boot
import Xv6.Vm.Lemmas.Kernel
import Xv6.Vm.Lemmas.Fault
import Xv6.Vm.Lemmas.Room
import Xv6.Vm.Bound
import Xv6.Vm.Fault
import Xv6.Vm.Guard
import Xv6.Vm.Fork
import Xv6.Vm.Flat
import Xv6.Vm.Lazy
import Xv6.Vm.Resize
import Xv6.Vm.Copyout
import Xv6.Vm.Argv
import Xv6.Vm.Clone
import Xv6.Vm.Account
import Xv6.Vm.Freemem
import Xv6.Vm.Report
import Xv6.Vm.Table
import Xv6.Pipe.Impl
import Xv6.Pipe.Lemmas
import Xv6.Pipe.Fifo
import Xv6.Pipe.Wakeup
import Xv6.Log.Impl
import Xv6.Log.Lemmas
import Xv6.Log.Admission
import Xv6.Log.Recovery
import Xv6.File.Impl
import Xv6.File.Lemmas
import Xv6.File.Refs
import Xv6.Bio.Impl
import Xv6.Bio.Lemmas
import Xv6.Bio.Flat
import Xv6.Fs.Format
import Xv6.Fs.Impl
import Xv6.Fs.Lemmas
import Xv6.Fs.Grow
import Xv6.Fs.File
import Xv6.Fs.Array
import Xv6.File.Access
import Xv6.File.Write
import Xv6.Fs.Logged
import Xv6.File.Shared
import Xv6.Fs.Trunc
import Xv6.Fs.Dirent
import Xv6.Fs.Blocks
import Xv6.Fs.Dir
import Xv6.Cricket.Impl
import Xv6.Cricket.Semaphores
import Xv6.Cricket.Condvars.Impl
import Xv6.Cricket.Condvars.Lemmas
import Xv6.Cricket.Condvars.Counted
import Xv6.Cricket.Condvars.Awake
import Xv6.Lab7.AddMillion
import Xv6.Lab7.Dispatch.Impl
import Xv6.Lab7.Dispatch.Order
import Xv6.Lab7.Dispatch.Handover
import Xv6.Lab7.Workers.Impl
import Xv6.Lab7.Workers.Totals
import Xv6.Lib.Outcome
import Xv6.Sh.Impl
import Xv6.Sh.Grammar
import Xv6.Sh.Lexer
import Xv6.Sh.Descent
import Xv6.Sh.Tree
import Xv6.Sh.Parse
import Xv6.Sh.Terminate
import Xv6.Sh.Command
import Xv6.Lib.Circuit
import Xv6.Lib.Tiling
import Xv6.Umalloc.Impl
import Xv6.Umalloc.FreeList
import Xv6.Umalloc.Free
import Xv6.Umalloc.Malloc
import Xv6.Umalloc.Heap
import Xv6.Umalloc.Process
import Xv6.Umalloc.Sbrk
import Xv6.Umalloc.Bounded
import Xv6.Umalloc.Overflow
import Xv6.Mkfs.Impl
import Xv6.Mkfs.Lemmas
import Xv6.Mkfs.Image
import Xv6.Mkfs.WellFormed
import Xv6.Mkfs.Decode
import Xv6.Vm.Robust
import Xv6.Lib.Trace
import Xv6.Lib.Monitor
import Xv6.Proc.Sleeplock
import Xv6.Log.Waiters
import Xv6.Console.Impl
import Xv6.Console.Edit
import Xv6.Console.Reads
import Xv6.Grep.Impl
import Xv6.Grep.Chunks
import Xv6.Syscall.Impl
import Xv6.Syscall.Within
import Xv6.Path.Impl
import Xv6.Path.Elems
import Xv6.Path.Cache
import Xv6.Path.Resolve
import Xv6.Grep.Regexp
import Xv6.Lab7.Workers.Queue
import Xv6.Cricket.Highest
import Xv6.Cricket.Results
import Xv6.Memmove.Impl
import Xv6.Memmove.Overlap
import Xv6.Mp.Impl
import Xv6.Mp.Scan
import Xv6.Paging.Impl
import Xv6.Paging.Words
import Xv6.Paging.Refine
import Xv6.Paging.Mappages
import Xv6.Icache.Impl
import Xv6.Icache.Phases
import Xv6.Icache.Invariant
import Xv6.Icache.Coherent
import Xv6.Lib.Chain
import Xv6.Lib.Refine
import Xv6.Ide.Impl
import Xv6.Ide.Spec
import Xv6.Ide.Invariant
import Xv6.Ide.Steps
import Xv6.Ide.Transfer
import Xv6.Ide.Progress
import Xv6.Sysfile.Runs
import Xv6.Spinlock.Safe
