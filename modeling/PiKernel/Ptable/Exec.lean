import PiKernel.Ptable.Machine

/-!
# Steps of the processors

`exec` is one statement of one processor.  A statement that has to wait (a spinlock that
another processor holds), and one the source leaves undefined, cannot be executed; a panic
ends the execution of its processor, with the statement that panicked after it.
-/

namespace PiKernel.Ptable

open PiKernel.Trap (ProcState)

variable
    {slots cpus : Nat}

/-! ## Statements -/

namespace Stmt

variable
    (c : Fin cpus)
    (k : Code slots)
    (m : Machine slots cpus)

/-- `acquire` -/
def runAcquire (lk : Lock) : Option (Machine slots cpus) :=
  if m.held lk = some c then
    some (m.goto c (.panic "acquire: spinlock already held\n" :: .acquire lk :: k))
  else if m.held lk = none then
    some (({ m with held := Function.update m.held lk (some c) }.note c
      (.acquired · lk)).goto c k)
  else
    none

/-- `release` -/
def runRelease (lk : Lock) : Option (Machine slots cpus) :=
  if m.held lk = some c then
    some ({ m with held := Function.update m.held lk none }.goto c k)
  else
    some (m.goto c (.panic "release: not locked\n" :: .release lk :: k))

/-- `sched` -/
def runSched : Option (Machine slots cpus) :=
  match m.current c with
  | none => none
  | some p =>
      if m.held .ptable ≠ some c then
        some (m.goto c (.panic "sched: not holding ptable lock\n" :: .sched :: k))
      else if (m.proc p).state = .RUNNING then
        some (m.goto c (.panic "sched: process running\n" :: .sched :: k))
      else
        (m.scheduler c).map fun code =>
          { m with
            context := Function.update m.context p (some k)
            scheduler := Function.update m.scheduler c none }.goto c code

/-- `swtch(&c->scheduler, p->context)` -/
def runSwtch (p : Fin slots) : Option (Machine slots cpus) :=
  (m.context p).map fun code =>
    { m with
      context := Function.update m.context p none
      scheduler := Function.update m.scheduler c (some k) }.goto c code

/-- The search of `scheduler`. -/
def runPick : Option (Machine slots cpus) :=
  match m.proc.pick c with
  | none => some (m.goto c k)
  | some p =>
      some (({ m with current := Function.update m.current c (some p) }.set p
        { m.proc p with state := .RUNNING }).goto c (.swtch p :: .clearProc :: k))

/-- What `exit` does under the lock. -/
def runExit (me : Fin slots) : Machine slots cpus :=
  let children := (List.finRange slots).filter fun p => (m.proc p).parent = some me
  let adoptions := children.flatMap fun p =>
    m.initproc.toList.map fun i => Event.adopted (m.pid i) (m.pid p)
  ({ (m.wake (m.proc.wakes me m.initproc)).record adoptions with
    proc := m.proc.exit me m.initproc }).goto c k

/-- The loop of `wait`. -/
def runWait (me : Fin slots) : Machine slots cpus :=
  match m.proc.zombie me with
  | some p =>
      -- `vm_free` and `kfree` take the pages back
      ({ m.record [.waited (m.pid me) (m.pid p)] with
        proc := m.proc.reap p
        context := Function.update m.context p none
        stack := fun page => m.stack page && decide ((m.proc p).kstack ≠ some page) }).goto c
        (.release .ptable :: k)
  | none =>
      if m.proc.havekids me = false ∨ (m.proc me).killed then
        (m.record [.noChild (m.pid me)]).goto c (.release .ptable :: k)
      else
        m.goto c (Code.sleep (some (.proc me)) .ptable ++ .wait :: k)

/-- A slot is taken for a process that will run a program. -/
def allocate (p : Fin slots) (page : Nat) (program : Program) : Machine slots cpus :=
  { m with
    proc := m.proc.alloc p page m.nextpid
    nextpid := m.nextpid + 1
    program := Function.update m.program p program
    context := Function.update m.context p (some Code.forkret)
    stack := Function.update m.stack page true }

/-- `proc_alloc`, called by `fork`; `nextpid` must not overflow. -/
def runAlloc (a : Action slots) (me : Fin slots) : Option (Machine slots cpus) :=
  match m.proc.unused with
  | none => some (m.goto c (.release .ptable :: k))
  | some p =>
      match a with
      | .kalloc none =>
          some ((m.set p { m.proc p with kstack := none }).goto c
            (.release .ptable :: .panic "proc_alloc: cannot alloc kstack.\n" :: k))
      | .kalloc (some page) =>
          if m.stack page = false ∧ m.nextpid < INT_MAX then
            some ((allocate m p page (m.program me)).goto c (.release .ptable :: .copyuvm p :: k))
          else
            none
      | _ => none

/-- `fork`: the address space of the child. -/
def runCopyuvm (p : Fin slots) (a : Action slots) : Option (Machine slots cpus) :=
  match a with
  | .copyuvm true => some (m.goto c (.setParent p :: .setChildRunnable p :: .returnPid p :: k))
  | .copyuvm false =>
      some (({ m with
        context := Function.update m.context p none
        stack := fun page => m.stack page && decide ((m.proc p).kstack ≠ some page) }.set p
        { m.proc p with
          kstack := none
          state := .UNUSED }).goto c k)
  | _ => none

/-- The loop of `acquiresleep`. -/
def runAcquiresleep (l : Nat) (me : Fin slots) : Machine slots cpus :=
  if (m.sleeplock l).locked then
    m.goto c (Code.sleep (some (.sleeplock l)) (.inner l) ++ .acquiresleep l :: k)
  else
    { m with
      sleeplock := Function.update m.sleeplock l { locked := true, pid := m.pid me }
      between := Function.update m.between l (m.pid me :: m.between l) }.goto c
      (.release (.inner l) :: k)

/-- A call of other kernel code; it releases only a sleep-lock that it has acquired. -/
def runCall (me : Fin slots) (function : Call slots) : Option (Machine slots cpus) :=
  match function with
  | .releasesleep l =>
      if m.pid me ∈ m.between l then
        some (m.goto c (Code.releasesleep l ++ .kernel :: k))
      else
        none
  | function => some (m.goto c (function.code ++ .kernel :: k))

/-- A statement that the process itself executes. -/
def runProc (a : Action slots) (me : Fin slots) :
    Stmt slots → Option (Machine slots cpus)
  | .user =>
      match a with
      | .trap entry =>
          if (m.program me).allows entry then some (m.goto c (entry.code ++ .user :: k))
          else none
      | _ => none
  | .kernel =>
      match a with
      | .go => some (m.goto c k)
      | .call function => runCall c k m me function
      | _ => none
  | .sleep chan lk =>
      if m.held lk = some c then some ((m.note c (.sleep · chan lk)).goto c k)
      else some (m.goto c (.panic "sleep: no lock held\n" :: .sleep chan lk :: k))
  | .setSleeping chan =>
      some ((m.set me { m.proc me with
        chan := chan
        state := .SLEEPING }).goto c k)
  | .setRunnable => some ((m.set me { m.proc me with state := .RUNNABLE }).goto c k)
  | .clearChan => some ((m.set me { m.proc me with chan := none }).goto c k)
  | .slept _ => some ((m.note c .slept).goto c k)
  | .wakeup1 chan =>
      let woken := fun p => decide ((m.proc p).state = .SLEEPING ∧ (m.proc p).chan = chan)
      some ({ m.wake woken with proc := m.proc.wakeup1 chan }.goto c k)
  | .checkInit =>
      if some me = m.initproc then some (m.goto c (.panic "init exiting" :: .checkInit :: k))
      else some ((m.note c .exited).goto c k)
  | .exit => some (runExit c k m me)
  | .wait => some (runWait c k m me)
  | .proc_alloc => runAlloc c k m a me
  | .copyuvm p => runCopyuvm c k m p a
  | .setParent p =>
      some (((m.record [.born (m.pid me) (m.pid p)]).set p
        { m.proc p with parent := some me }).goto c k)
  | .setChildRunnable p => some ((m.set p { m.proc p with state := .RUNNABLE }).goto c k)
  | .returnPid p => some ((m.record [.forked (m.pid me) (m.pid p)]).goto c k)
  | .forkret =>
      if m.pid me = 1 then some (m.goto c (Code.firstProcess ++ k)) else some (m.goto c k)
  | .acquiresleep l => some (runAcquiresleep c k m l me)
  | .unlock l =>
      some ({ m with
        sleeplock := Function.update m.sleeplock l { locked := false, pid := 0 }
        between := Function.update m.between l ((m.between l).erase (m.pid me)) }.goto c k)
  | .drop_priority =>
      let priority := (m.proc me).priority
      some ((m.set me { m.proc me with
        priority := if 0 < priority then priority - 1 else priority }).goto c k)
  | .raise_priority =>
      let priority := (m.proc me).priority
      some ((m.set me { m.proc me with
        priority := if priority < 1 then priority + 1 else priority }).goto c k)
  | .set_cpus_allowed mask =>
      some ((m.set me { m.proc me with cpus_allowed := mask }).goto c k)
  | _ => none

end Stmt

/-- One statement of a processor. -/
def exec (c : Fin cpus) (a : Action slots) (m : Machine slots cpus) :
    Option (Machine slots cpus) :=
  match m.code c with
  | [] => none
  | .panic _ :: _ => none
  | .acquire lk :: k => Stmt.runAcquire c k m lk
  | .release lk :: k => Stmt.runRelease c k m lk
  | .sched :: k => Stmt.runSched c k m
  | .scheduler :: k => some (m.goto c (Code.scheduler ++ k))
  | .pick :: k => Stmt.runPick c k m
  | .swtch p :: k => Stmt.runSwtch c k m p
  | .clearProc :: k => some ({ m with current := Function.update m.current c none }.goto c k)
  | stmt :: k => (m.current c).bind fun me => Stmt.runProc c k m a me stmt

/-! ## Runs -/

/-- `main` has not begun. -/
def zeroed (slots cpus : Nat) : Machine slots cpus where
  proc := fun _ => .zero slots
  nextpid := 1
  initproc := none
  held := fun _ => none
  sleeplock := fun _ => { locked := false, pid := 0 }
  current := fun _ => none
  code := fun _ => [.scheduler]
  program := fun _ => .any
  context := fun _ => none
  scheduler := fun _ => none
  stack := fun _ => false
  between := fun _ => []
  events := []

/-- `user_init` and `user_idle_init`, which differ in the program. -/
def initProcess (program : Program) (page : Nat) (m : Machine slots cpus) :
    Option (Machine slots cpus) :=
  match m.proc.unused with
  | none => none
  | some p =>
      if m.stack page = false ∧ m.nextpid < INT_MAX then
        let m := Stmt.allocate m p page program
        some ({ m with initproc := some p }.set p { m.proc p with state := .RUNNABLE })
      else
        none

/-- `user_init` -/
def user_init (page : Nat) (m : Machine slots cpus) : Option (Machine slots cpus) :=
  initProcess .any page m

/-- `user_idle_init` -/
def user_idle_init (page : Nat) (m : Machine slots cpus) : Option (Machine slots cpus) :=
  initProcess .loop page m

/-- `main`, up to `scheduler`; the pages are what `kalloc` returns. -/
def main (slots cpus : Nat) (page : Nat) (idle : Fin 3 → Nat) : Option (Machine slots cpus) :=
  (user_init page (zeroed slots cpus)).bind fun m =>
    (List.finRange 3).foldlM (fun m i => user_idle_init (idle i) m) m

/-- A processor executes a statement. -/
inductive Step : Machine slots cpus → Machine slots cpus → Prop where
  | exec {m m' : Machine slots cpus} (c : Fin cpus) (a : Action slots)
      (effect : exec c a m = some m') : Step m m'

/-- The states of all runs that begin with `main`. -/
inductive Reachable : Machine slots cpus → Prop where
  | boot {m : Machine slots cpus} (page : Nat) (idle : Fin 3 → Nat)
      (booted : main slots cpus page idle = some m) : Reachable m
  | step {m m' : Machine slots cpus} (before : Reachable m) (next : Step m m') : Reachable m'

/-- The steps of some processors in turn. -/
def execAll (steps : List (Fin cpus × Action slots)) (m : Machine slots cpus) :
    Option (Machine slots cpus) :=
  steps.foldlM (fun m step => exec step.1 step.2 m) m

theorem Reachable.execAll {m m' : Machine slots cpus} (reachable : Reachable m)
    (steps : List (Fin cpus × Action slots)) (ends : execAll steps m = some m') :
    Reachable m' := by
  induction steps generalizing m with
  | nil =>
      cases ends
      exact reachable
  | cons step steps ih =>
      rcases Option.bind_eq_some_iff.mp ends with ⟨m₁, first, rest⟩
      exact ih (reachable.step (.exec step.1 step.2 first)) rest

end PiKernel.Ptable
