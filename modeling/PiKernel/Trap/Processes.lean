import PiKernel.Base.Params
import PiKernel.Trap.Frame

/-!
# Traps and switches between processes

The processors run user processes, the C code that a trap calls on the kernel stack of a
process, and `scheduler`.  The C code may change its own registers and its own stack, and
it calls `swtch`; an action is such a change, or one of the assembly functions, which
use nothing that another processor may change.  Interrupts are masked in the kernel.
-/

namespace PiKernel.Trap

/-- Maximum number of CPUs. -/
def NCPU : Nat := 4

/-- A slot of `ptable.proc`. -/
abbrev Pid := Fin NPROC

abbrev Cpu := Fin NCPU

inductive ProcState where
  | UNUSED
  | EMBRYO
  | SLEEPING
  | RUNNABLE
  | RUNNING
  | ZOMBIE
  deriving DecidableEq

/-- What `swtch` switches between. -/
inductive Thread where
  | proc (p : Pid)
  | scheduler (c : Cpu)
  deriving DecidableEq

/-- `KSTACKSIZE`, and the size of a stack of `entry.S`. -/
def KSTACKSIZE : Nat := 4096

/-- Max exec arguments. -/
def MAXARG : UInt64 := 32

/-! ## System calls -/

/-- The cases of `syscall1`. -/
inductive Sysno where
  | set_tid_address
  | gettid
  | ioctl
  | rt_sigprocmask
  | brk
  | execve
  | sched_yield
  | clone
  | wait4
  | exit_group
  | exit
  | dup
  | chdir
  | fstat
  | newfstatat
  | mkdirat
  | mknodat
  | openat
  | writev
  | read
  | write
  | close
  deriving DecidableEq

/-- `TIOCGWINSZ` -/
def windowSize : UInt64 := 0x5413

/-- Does `syscall1` store its result in `tf->r0`?  `none` for a panic. -/
def stores (sysno : Option Sysno) (r1 : UInt64) : Option Bool :=
  match sysno with
  | none => none
  | some .ioctl => if r1 = windowSize then some false else none
  | some _ => some true

/-! ## The machine -/

/--
What the linker, the header of the system calls and the processor fix: where the kernel
begins and the free pages begin, the fields `p->context` and `c->scheduler`, two places in
the code, and what `ldp a, a` loads.
-/
structure Layout where
  start : Nat
  heap : Nat
  field : Thread → Nat
  trapret : UInt64
  forkret : UInt64
  sysno : UInt32 → Option Sysno
  pair : Pair

/-- `_start - cpuid() * PGSIZE` -/
def Layout.stack (layout : Layout) (c : Cpu) : Nat := layout.start - c * KSTACKSIZE

structure Layout.Valid (layout : Layout) : Prop where
  low : NCPU * KSTACKSIZE ≤ layout.start
  field : ∀ t, layout.start ≤ layout.field t ∧ layout.field t < layout.heap
  apart : ∀ t t', layout.field t = layout.field t' → t = t'
  small : layout.heap ≤ 2 ^ 64

/-- The registers of a user process. -/
structure User where
  x : Fin 31 → UInt64
  q : Fin 32 → UInt64 × UInt64
  sp_el0 : UInt64
  tpidr_el0 : UInt64
  /-- The program counter: `ELR_EL1` while the process is interrupted. -/
  pc : UInt64
  /-- The processor state: `SPSR_EL1` while the process is interrupted. -/
  pstate : UInt64

/-- `SVC` has an immediate operand, which is 0 for a system call. -/
inductive Cause where
  | irq
  | svc (iss : Nat)
  deriving DecidableEq

/-- How far `execve` has got with the trap frame. -/
inductive Stage where
  | begun
  /-- `tf->r0` is written. -/
  | argc
  /-- `tf->r1` is written. -/
  | argv
  /-- `tf->sp` and `tf->elr` are written, and `execve` does not fail any more. -/
  | image
  deriving DecidableEq

/-- A trap whose handling has not ended. -/
structure Trapped where
  cause : Cause
  user : User
  stage : Stage
  /-- What `syscall1` has returned. -/
  result : Option UInt64

/-- A function that has called `swtch` relies on these at its return. -/
structure Frozen where
  sp : Nat
  callee : Fin 12 → UInt64
  mem : Mem

inductive Mode where
  | user (p : Pid) (pc pstate : UInt64)
  /-- C code on the stack of a process. -/
  | kernel (p : Pid)
  /-- `sched` calls `swtch`. -/
  | leaving (p : Pid)
  | scheduler
  /-- `scheduler` calls `swtch`. -/
  | choosing (p : Pid)
  deriving DecidableEq

/-- `saved` and the registers in `trapped` are a history: only statements depend on them. -/
structure Machine where
  regs : Cpu → Regs
  mode : Cpu → Mode
  mem : Mem
  /-- Who holds `ptable.lock`. -/
  lock : Option Cpu
  state : Pid → ProcState
  kstack : Pid → Nat
  saved : Thread → Option Frozen
  trapped : Pid → Option Trapped

namespace Machine

variable (m : Machine) (c : Cpu)

/-- The trap frame of a process, at the top of its stack. -/
def tf (p : Pid) : Nat := m.kstack p + KSTACKSIZE - TRAPFRAME

/-- The registers of the process that runs. -/
def user (pc pstate : UInt64) : User where
  x := (m.regs c).x
  q := (m.regs c).q
  sp_el0 := (m.regs c).sys .sp_el0
  tpidr_el0 := (m.regs c).sys .tpidr_el0
  pc := pc
  pstate := pstate

def setMode (mode : Mode) : Machine :=
  { m with mode := Function.update m.mode c mode }

def setState (p : Pid) (state : ProcState) : Machine :=
  { m with state := Function.update m.state p state }

/-- The registers and the memory that some code leaves. -/
def ran (out : Regs × Mem) : Machine :=
  { m with regs := Function.update m.regs c out.1, mem := out.2 }

/-- A word of memory is written. -/
def store (addr : Nat) (value : UInt64) : Machine :=
  { m with mem := Function.update m.mem addr value }

end Machine

/-! ## The assembly functions -/

namespace Machine

variable (layout : Layout) (m : Machine) (c : Cpu)

/-- The processor takes a trap and executes `alltraps`. -/
def trap (p : Pid) (pc pstate : UInt64) (cause : Cause) : Machine :=
  let r := m.regs c
  let sys := Function.update (Function.update r.sys .elr_el1 pc) .spsr_el1 pstate
  let saved := run layout.pair alltraps ({ r with sys := sys }, m.mem)
  let after := (m.ran c saved).setMode c (.kernel p)
  { after with
    trapped := Function.update m.trapped p
      (some { cause := cause, user := m.user c pc pstate, stage := .begun, result := none }) }

/-- `trapret` is executed. -/
def resume (p : Pid) : Machine :=
  let out := run layout.pair trapret (m.regs c, m.mem)
  let after := (m.ran c out).setMode c
    (.user p (out.1.sys .elr_el1) (out.1.sys .spsr_el1))
  { after with trapped := Function.update m.trapped p none }

/-- The registers with the arguments of `swtch`. -/
def arguments (old new : Thread) : Regs :=
  { m.regs c with
    x := Function.update
      (Function.update (m.regs c).x 0 (UInt64.ofNat (layout.field old)))
      1 (m.mem (layout.field new)) }

/-- `swtch(&old, new)` -/
def switch (old new : Thread) (mode : Mode) : Machine :=
  let r := m.arguments layout c old new
  let after := (m.ran c (run layout.pair swtch (r, m.mem))).setMode c mode
  { after with
    saved := Function.update
      (Function.update m.saved old
        (some { sp := r.sp, callee := callee r, mem := m.mem })) new none }

/-- What `proc_alloc` writes on a new kernel stack, whatever was in the page. -/
def newStack (kstack : Nat) (page : Mem) : Mem := fun addr =>
  if addr < kstack ∨ kstack + KSTACKSIZE ≤ addr then m.mem addr
  else if addr = kstack + KSTACKSIZE - TRAPFRAME - 8 then layout.trapret
  else if addr = kstack + KSTACKSIZE - TRAPFRAME - 16 then UInt64.ofNat (kstack + KSTACKSIZE)
  else if addr = kstack + KSTACKSIZE - TRAPFRAME - 24 then layout.forkret + 8
  else page addr

/-- The end of `proc_alloc`. -/
def alloc (p : Pid) (kstack : Nat) (page : Mem) : Machine :=
  let sp := kstack + KSTACKSIZE - TRAPFRAME - 16
  let mem := m.newStack layout kstack page
  { m with
    mem := Function.update mem (layout.field (.proc p)) (UInt64.ofNat (sp - CONTEXT))
    state := Function.update m.state p .EMBRYO
    kstack := Function.update m.kstack p kstack
    saved := Function.update m.saved (.proc p)
      (some { sp := sp, callee := fun i => mem (sp - CONTEXT + 8 * i), mem := mem })
    trapped := Function.update m.trapped p none }

end Machine

/-! ## Actions -/

inductive Action where
  /-- A user process executes some instructions. -/
  | user (after : User)
  | trap (cause : Cause)
  /-- C code changes its registers. -/
  | code (x : Fin 31 → UInt64) (q : Fin 32 → UInt64 × UInt64) (sp : Nat)
  /-- C code writes on its stack. -/
  | store (addr : Nat) (value : UInt64)
  | acquire
  | release
  /-- `yield`, `sleep` or `exit`: the process is in another state, and calls `sched`. -/
  | sched (state : ProcState)
  /-- `wakeup1` -/
  | wakeup (p : Pid)
  /-- `scheduler` has found a process. -/
  | choose (p : Pid)
  | swtch
  /-- `proc_alloc` -/
  | alloc (p : Pid) (kstack : Nat) (page : Mem)
  /-- `fork` and `user_init` fill the trap frame of a new process. -/
  | fill (p : Pid) (addr : Nat) (value : UInt64)
  | ready (p : Pid)
  /-- `wait`, or `fork` where it fails: the slot and the stack are free. -/
  | reap (p : Pid)
  /-- `thisproc()->tf->r0 = argc` in `execve` -/
  | argc (argc : UInt64)
  /-- `thisproc()->tf->r1 = sp` in `execve` -/
  | argv (argv : UInt64)
  /-- The end of an `execve` that succeeds. -/
  | image (sp elr : UInt64)
  /-- `syscall1` returns. -/
  | result (value : UInt64)
  | trapret

namespace Machine

variable (layout : Layout) (m : Machine) (c : Cpu)

/-- The part of its stack that a thread has for C functions. -/
def bottom : Thread → Nat
  | .proc p => m.kstack p
  | .scheduler c => layout.stack c - KSTACKSIZE

def top : Thread → Nat
  | .proc p => m.tf p
  | .scheduler c => layout.stack c

/-- The thread whose C code the processor executes. -/
def cThread : Option Thread :=
  match m.mode c with
  | .kernel p => some (.proc p)
  | .scheduler => some (.scheduler c)
  | _ => none

/-- A page that `kalloc` may return for a stack. -/
def freePage (kstack : Nat) : Bool :=
  decide (KSTACKSIZE ∣ kstack ∧ layout.heap ≤ kstack ∧ kstack + KSTACKSIZE ≤ 2 ^ 64 ∧
    ∀ p, m.state p = .UNUSED ∨ m.kstack p ≠ kstack)

/-- The process is in a system call that has not returned. -/
def calling (p : Pid) : Option Trapped :=
  match m.trapped p with
  | some t => if t.cause = .svc 0 ∧ t.result = none then some t else none
  | none => none

/-- Has `trap` got to its end? -/
def handled (p : Pid) : Bool :=
  (m.calling p).isNone

/-- The number of the system call in the trap frame. -/
def sysno (p : Pid) : Option Sysno :=
  layout.sysno ((Trapframe.load m.mem (m.tf p)).r 8).toUInt32

/-- The process is in `execve`, which has got so far. -/
def inExecve (p : Pid) (stage : Stage) : Option Trapped :=
  match m.calling p with
  | some t => if m.sysno layout p = some .execve ∧ t.stage = stage then some t else none
  | none => none

/--
`execve` returns -1, or at its end `tf->r0`, which an `int` holds; of another call all is
possible.
-/
def mayReturn (p : Pid) (t : Trapped) (value : UInt64) : Bool :=
  m.sysno layout p != some .execve ||
    value == if t.stage = .image then (Trapframe.load m.mem (m.tf p)).r 0 else -1

def setTrapped (p : Pid) (t : Trapped) : Machine :=
  { m with trapped := Function.update m.trapped p (some t) }

end Machine

def exec (layout : Layout) (c : Cpu) (m : Machine) : Action → Option Machine
  | .user after =>
      match m.mode c with
      | .user p _ _ =>
          let r := m.regs c
          let sys := Function.update (Function.update r.sys .sp_el0 after.sp_el0)
            .tpidr_el0 after.tpidr_el0
          some ((m.ran c ({ r with x := after.x, q := after.q, sys := sys }, m.mem)).setMode c
            (.user p after.pc after.pstate))
      | _ => none
  | .trap cause =>
      match m.mode c with
      | .user p pc pstate => some (m.trap layout c p pc pstate cause)
      | _ => none
  | .code x q sp =>
      match m.cThread c with
      | some t =>
          if m.bottom layout t ≤ sp ∧ sp ≤ m.top layout t ∧ 16 ∣ sp then
            some (m.ran c ({ m.regs c with x := x, q := q, sp := sp }, m.mem))
          else
            none
      | none => none
  | .store addr value =>
      match m.cThread c with
      | some t =>
          if m.bottom layout t ≤ addr ∧ addr < m.top layout t ∧ 8 ∣ addr then
            some (m.store addr value)
          else
            none
      | none => none
  | .acquire =>
      match m.cThread c, m.lock with
      | some _, none => some { m with lock := some c }
      | _, _ => none
  | .release =>
      match m.cThread c with
      | some _ => if m.lock = some c then some { m with lock := none } else none
      | none => none
  | .sched state =>
      match m.mode c with
      | .kernel p =>
          if m.lock = some c ∧ (state = .RUNNABLE ∨ state = .SLEEPING ∨ state = .ZOMBIE) then
            some ((m.setState p state).setMode c (.leaving p))
          else
            none
      | _ => none
  | .wakeup p =>
      match m.cThread c with
      | some _ =>
          if m.lock = some c ∧ m.state p = .SLEEPING then some (m.setState p .RUNNABLE)
          else none
      | none => none
  | .choose p =>
      match m.mode c with
      | .scheduler =>
          if m.lock = some c ∧ m.state p = .RUNNABLE then
            some ((m.setState p .RUNNING).setMode c (.choosing p))
          else
            none
      | _ => none
  | .swtch =>
      match m.mode c with
      | .leaving p =>
          if m.bottom layout (.proc p) + CONTEXT ≤ (m.regs c).sp then
            some (m.switch layout c (.proc p) (.scheduler c) .scheduler)
          else
            none
      | .choosing p =>
          if m.bottom layout (.scheduler c) + CONTEXT ≤ (m.regs c).sp then
            some (m.switch layout c (.scheduler c) (.proc p) (.kernel p))
          else
            none
      | _ => none
  | .alloc p kstack page =>
      match m.cThread c with
      | some _ =>
          if m.lock = some c ∧ m.state p = .UNUSED ∧ m.freePage layout kstack then
            some (m.alloc layout p kstack page)
          else
            none
      | none => none
  | .fill p addr value =>
      match m.cThread c with
      | some _ =>
          if m.state p = .EMBRYO ∧ m.tf p ≤ addr ∧ addr < m.kstack p + KSTACKSIZE ∧ 8 ∣ addr then
            some (m.store addr value)
          else
            none
      | none => none
  | .ready p =>
      match m.cThread c with
      | some _ => if m.state p = .EMBRYO then some (m.setState p .RUNNABLE) else none
      | none => none
  | .reap p =>
      match m.cThread c with
      | some _ =>
          if m.state p = .EMBRYO ∨ m.lock = some c ∧ m.state p = .ZOMBIE then
            some (m.setState p .UNUSED)
          else
            none
      | none => none
  | .argc argc =>
      match m.mode c with
      | .kernel p =>
          match m.inExecve layout p .begun with
          | some t =>
              if argc ≤ MAXARG then
                some ((m.store (m.tf p + offset 0) argc).setTrapped p { t with stage := .argc })
              else
                none
          | none => none
      | _ => none
  | .argv argv =>
      match m.mode c with
      | .kernel p =>
          match m.inExecve layout p .argc with
          | some t =>
              some ((m.store (m.tf p + offset 1) argv).setTrapped p { t with stage := .argv })
          | none => none
      | _ => none
  | .image sp elr =>
      match m.mode c with
      | .kernel p =>
          match m.inExecve layout p .argv with
          | some t =>
              some (((m.store (m.tf p + 48) sp).store (m.tf p + 32) elr).setTrapped p
                { t with stage := .image })
          | none => none
      | _ => none
  | .result value =>
      match m.mode c with
      | .kernel p =>
          match m.calling p, stores (m.sysno layout p) ((Trapframe.load m.mem (m.tf p)).r 1) with
          | some t, some stored =>
              if m.mayReturn layout p t value then
                let after := if stored then m.store (m.tf p + offset 0) value else m
                some (after.setTrapped p { t with result := some value })
              else
                none
          | _, _ => none
      | _ => none
  | .trapret =>
      match m.mode c with
      | .kernel p =>
          if (m.regs c).sp = m.tf p ∧ m.lock ≠ some c ∧ m.handled p then
            some (m.resume layout c p)
          else
            none
      | _ => none

end PiKernel.Trap
