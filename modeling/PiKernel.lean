import PiKernel.Logging.Admission
import PiKernel.Logging.GroupCommit
import PiKernel.Bio.Cache
import PiKernel.Bio.Users
import PiKernel.Bio.Invariant
import PiKernel.Bio.Refine
import PiKernel.Bio.Coherence
import PiKernel.Bio.Supply
import PiKernel.Base.Linked
import PiKernel.Bio.Lru
import PiKernel.Base.Fields
import PiKernel.Fs.Layout
import PiKernel.Fs.Files
import PiKernel.Fs.Inodes
import PiKernel.Fs.Syscalls
import PiKernel.Fs.Blocks
import PiKernel.Fs.Refs
import PiKernel.Fs.Volume
import PiKernel.Fs.Alone
import PiKernel.Fs.Edits
import PiKernel.Fs.Contents
import PiKernel.Fs.ByteSequence
import PiKernel.Fs.ReadWrite
import PiKernel.Fs.Operations
import PiKernel.Fs.FileWrite
import PiKernel.Base.Slots
import PiKernel.Fs.Directory
import PiKernel.Fs.Lookup
import PiKernel.Base.Words
import PiKernel.Fs.Paths
import PiKernel.Fs.Resolve
import PiKernel.Fs.Create
import PiKernel.Fs.FailedCalls
import PiKernel.Fs.Freeing
import PiKernel.Conc.Views
import PiKernel.Fs.Held
import PiKernel.Fs.Duties
import PiKernel.Fs.Restoring
import PiKernel.Fs.Balance
import PiKernel.Fs.Calls
import PiKernel.Fs.Accounts
import PiKernel.Conc.Tally
import PiKernel.Fs.Brackets
import PiKernel.Vm.FreeList
import PiKernel.Vm.Kalloc
import PiKernel.Vm.Memory
import PiKernel.Vm.Paging
import PiKernel.Conc.Alone
import PiKernel.Vm.Heap
import PiKernel.Vm.Rules
import PiKernel.Vm.Tables
import PiKernel.Vm.Spaces
import PiKernel.Vm.Span
import PiKernel.Vm.Image
import PiKernel.Vm.Loading
import PiKernel.Vm.Exec
import PiKernel.Vm.Alone
import PiKernel.Vm.Teardown
import PiKernel.Vm.Stack
import PiKernel.Vm.Replace
import PiKernel.Vm.Alignment
import PiKernel.Vm.Contents
import PiKernel.Vm.Growproc
import PiKernel.Vm.Framing
import PiKernel.Vm.Intact
import PiKernel.Vm.Segments
import PiKernel.Vm.Copying
import PiKernel.Vm.Fork
import PiKernel.Vm.Translation
import PiKernel.Vm.Unmapping
import PiKernel.Vm.Region
import PiKernel.Vm.Cloning
import PiKernel.Vm.Copyout
import PiKernel.Sys.Pointers
import PiKernel.Sys.Confined
import PiKernel.Mkfs.Program
import PiKernel.Mkfs.Invariant
import PiKernel.Mkfs.Append
import PiKernel.Mkfs.Build
import PiKernel.Mkfs.Valid
import PiKernel.Mkfs.Tidy
import PiKernel.Mkfs.Readback
import PiKernel.Console.Input
import PiKernel.Console.Editor
import PiKernel.Console.Lossless
import PiKernel.Sd.Driver
import PiKernel.Sd.Queue
import PiKernel.Sd.Requests
import PiKernel.Sd.Pointers
import PiKernel.Trap.Processes
import PiKernel.Trap.Invariant
import PiKernel.Trap.Steps
import PiKernel.Trap.Registers
import PiKernel.Ptable.Scheduling
import PiKernel.Ptable.Pending
import PiKernel.Ptable.Kin
import PiKernel.Ptable.Locks
import PiKernel.Ptable.Course
import PiKernel.Ptable.Sleeping
import PiKernel.Ptable.Wakeups
import PiKernel.Ptable.Descent
import PiKernel.Ptable.Life
import PiKernel.Ptable.Orphans
import PiKernel.Sh.Lexer
import PiKernel.Sh.Parser
import PiKernel.Sh.Grammar
import PiKernel.Sh.Complete
import PiKernel.Sh.Terminate
import PiKernel.Sh.Cursor
