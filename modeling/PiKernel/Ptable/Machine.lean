import PiKernel.Conc.Continuation
import PiKernel.Ptable.Table

/-!
# Processes, processors and spinlocks

Every processor executes a list of statements: what is left of the kernel functions that
its thread is in.  `swtch` exchanges the list with a saved one.  A statement is what a
function does between two points where other processors can intervene: code under
`ptable.lock` uses only what the lock protects, and is one statement up to the next
`swtch` or `release`; `fork` fills its child's slot without the lock, one field a statement.
Interrupts are masked in the kernel, and a process that is in user mode may trap at any
time.
-/

namespace PiKernel.Ptable

open PiKernel.Trap (ProcState)

variable
    {slots cpus : Nat}

/-- The spinlocks: `ptable.lock`, the `lk` of a sleep-lock, and all others. -/
inductive Lock where
  | ptable
  | inner (l : Nat)
  | spin (n : Nat)
  deriving DecidableEq

/-- `struct sleeplock`, less its spinlock -/
structure SleepLock where
  locked : Bool
  pid : Nat
  deriving DecidableEq

/-- What a process runs in user mode: the last instruction of `initcode.S`, or anything. -/
inductive Program where
  | loop
  | any
  deriving DecidableEq

/-! ## Code -/

inductive Stmt (slots : Nat) where
  /-- User mode. -/
  | user
  /-- Kernel code outside of the functions below, which may call them. -/
  | kernel
  | acquire (lk : Lock)
  | release (lk : Lock)
  /-- The check that begins `sleep`. -/
  | sleep (chan : Option (Chan slots)) (lk : Lock)
  /-- `p->chan = chan; p->state = SLEEPING;` -/
  | setSleeping (chan : Option (Chan slots))
  /-- `p->state = RUNNABLE;` of `yield` -/
  | setRunnable
  | sched
  /-- `p->chan = 0;` -/
  | clearChan
  /-- `sleep` returns. -/
  | slept (lk : Lock)
  | wakeup1 (chan : Option (Chan slots))
  /-- The check that begins `exit`. -/
  | checkInit
  /-- What `exit` does under the lock. -/
  | exit
  /-- The loop of `wait`. -/
  | wait
  | proc_alloc
  /-- `fork`: the pages of the parent are copied. -/
  | copyuvm (p : Fin slots)
  /-- `p->parent = thisproc();` -/
  | setParent (p : Fin slots)
  /-- `p->state = RUNNABLE;` of `fork` -/
  | setChildRunnable (p : Fin slots)
  /-- `return p->pid;` -/
  | returnPid (p : Fin slots)
  | forkret
  /-- The loop of `acquiresleep`. -/
  | acquiresleep (l : Nat)
  /-- `lk->locked = 0; lk->pid = 0;` -/
  | unlock (l : Nat)
  | drop_priority
  | raise_priority
  | set_cpus_allowed (mask : BitVec 32)
  /-- The `for (;;)` of `scheduler`. -/
  | scheduler
  /-- The search of `scheduler`, up to `swtch`. -/
  | pick
  | swtch (p : Fin slots)
  /-- `c->proc = NULL;` -/
  | clearProc
  | panic (message : String)
  deriving DecidableEq

abbrev Code (slots : Nat) := List (Stmt slots)

namespace Code

/-- `yield` -/
def yield : Code slots := [.acquire .ptable, .setRunnable, .sched, .release .ptable]

/-- `sleep` -/
def sleep (chan : Option (Chan slots)) (lk : Lock) : Code slots :=
  if lk = .ptable then
    [.sleep chan lk, .setSleeping chan, .sched, .clearChan, .slept lk]
  else
    [.sleep chan lk, .acquire .ptable, .release lk, .setSleeping chan, .sched, .clearChan,
      .release .ptable, .acquire lk, .slept lk]

/-- `wakeup` -/
def wakeup (chan : Option (Chan slots)) : Code slots :=
  [.acquire .ptable, .wakeup1 chan, .release .ptable]

/-- `exit`; the open files and the current directory are given up in between. -/
def exit : Code slots :=
  [.checkInit, .kernel, .acquire .ptable, .exit, .sched, .panic "zombie exit"]

/-- `wait` -/
def wait : Code slots := [.acquire .ptable, .wait]

/-- `fork` -/
def fork : Code slots := [.acquire .ptable, .proc_alloc]

/-- `acquiresleep` -/
def acquiresleep (l : Nat) : Code slots := [.acquire (.inner l), .acquiresleep l]

/-- `releasesleep` -/
def releasesleep (l : Nat) : Code slots :=
  [.acquire (.inner l), .unlock l] ++ wakeup (some (.sleeplock l)) ++ [.release (.inner l)]

/-- `drop_priority` -/
def drop_priority : Code slots := [.acquire .ptable, .drop_priority, .release .ptable]

/-- `raise_priority` -/
def raise_priority : Code slots := [.acquire .ptable, .raise_priority, .release .ptable]

/-- `set_cpus_allowed` -/
def set_cpus_allowed (mask : BitVec 32) : Code slots :=
  [.acquire .ptable, .set_cpus_allowed mask, .release .ptable]

/-- `timer` -/
def timer : Code slots := drop_priority ++ yield

/-- What a new process executes. -/
def forkret : Code slots := [.release .ptable, .forkret, .user]

/-- The first process initializes the file system and tests it. -/
def firstProcess : Code slots :=
  [.kernel] ++ raise_priority ++ set_cpus_allowed (BitVec.allOnes 32 ^^^ 1) ++ [.kernel]

/-- One round of `scheduler`. -/
def scheduler : Code slots := [.acquire .ptable, .pick, .release .ptable, .scheduler]

end Code

/-- What a trap from user mode executes. -/
inductive Entry where
  | timer
  | yield
  | fork
  | exit
  | wait
  /-- Any other interrupt or system call. -/
  | other
  deriving DecidableEq

def Entry.code : Entry → Code slots
  | .timer => Code.timer
  | .yield => Code.yield
  | .fork => Code.fork
  | .exit => Code.exit
  | .wait => Code.wait
  | .other => [.kernel]

/-- A program that only jumps to itself is interrupted, and calls nothing. -/
def Program.allows : Program → Entry → Bool
  | .loop, entry => entry = .timer ∨ entry = .other
  | .any, _ => true

/-- What other kernel code calls. -/
inductive Call (slots : Nat) where
  | acquire (n : Nat)
  | release (n : Nat)
  | sleep (chan : Option (Chan slots)) (n : Nat)
  | wakeup (chan : Option (Chan slots))
  | acquiresleep (l : Nat)
  | releasesleep (l : Nat)

def Call.code : Call slots → Code slots
  | .acquire n => [.acquire (.spin n)]
  | .release n => [.release (.spin n)]
  | .sleep chan n => Code.sleep chan (.spin n)
  | .wakeup chan => Code.wakeup chan
  | .acquiresleep l => Code.acquiresleep l
  | .releasesleep l => Code.releasesleep l

/-! ## The machine -/

/-- What has happened, by the pids of the processes concerned. -/
inductive Event (slots : Nat) where
  | acquired (n : Nat) (lk : Lock)
  /-- The process has called `sleep`, holding the lock. -/
  | sleep (n : Nat) (chan : Option (Chan slots)) (lk : Lock)
  | woken (n : Nat)
  | slept (n : Nat)
  /-- `fork` has made the one the parent of the other. -/
  | born (parent child : Nat)
  | forked (parent child : Nat)
  /-- `exit` has been called, and has not panicked. -/
  | exited (n : Nat)
  /-- `exit` passes on a child. -/
  | adopted (parent child : Nat)
  | waited (parent child : Nat)
  /-- `wait` returns -1. -/
  | noChild (n : Nat)
  deriving DecidableEq

/-- The last two fields are a history: only statements depend on them. -/
structure Machine (slots cpus : Nat) where
  proc : Table slots
  nextpid : Nat
  initproc : Option (Fin slots)
  /-- The processor that holds a spinlock. -/
  held : Lock → Option (Fin cpus)
  sleeplock : Nat → SleepLock
  /-- `cpus[c].proc` -/
  current : Fin cpus → Option (Fin slots)
  code : Fin cpus → Code slots
  /-- What is in the memory of the process. -/
  program : Fin slots → Program
  /-- `p->context` -/
  context : Fin slots → Option (Code slots)
  /-- `c->scheduler` -/
  scheduler : Fin cpus → Option (Code slots)
  /-- The pages that `kalloc` has returned for a kernel stack. -/
  stack : Nat → Bool
  /-- The pids of the processes that have set `locked` and have not cleared it. -/
  between : Nat → List Nat
  events : List (Event slots)

namespace Machine

variable
    (m : Machine slots cpus)
    (c : Fin cpus)

def goto (code : Code slots) : Machine slots cpus :=
  { m with code := Function.update m.code c code }

/-- A slot of the table is written. -/
def set (p : Fin slots) (proc : Proc slots) : Machine slots cpus :=
  { m with proc := Function.update m.proc p proc }

def pid (p : Fin slots) : Nat := (m.proc p).pid

/-- Events are added in front. -/
def record (events : List (Event slots)) : Machine slots cpus :=
  { m with events := events ++ m.events }

/-- An event of the process that runs; `scheduler` is no process. -/
def note (event : Nat → Event slots) : Machine slots cpus :=
  m.record ((m.current c).toList.map fun p => event (m.pid p))

/-- The processes of some slots have woken up. -/
def wake (woken : Fin slots → Bool) : Machine slots cpus :=
  m.record (((List.finRange slots).filter woken).map fun p => .woken (m.pid p))

end Machine

/-- What the rest of the machine decides. -/
inductive Action (slots : Nat) where
  | go
  | trap (entry : Entry)
  | call (function : Call slots)
  /-- `kalloc` returns. -/
  | kalloc (page : Option Nat)
  /-- `copyuvm` succeeds or fails. -/
  | copyuvm (ok : Bool)

/-- The largest `int`. -/
def INT_MAX : Nat := 2 ^ 31 - 1

end PiKernel.Ptable
