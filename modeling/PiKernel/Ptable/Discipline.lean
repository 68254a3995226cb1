import PiKernel.Ptable.Exec

/-!
# The discipline of `ptable.lock`

Where a processor is between two switches: whether it holds `ptable.lock`, and what it has
done to the table under it.  `permitted` says which statement may come next.  Every
function follows it from the phase in which it is called, also where it is resumed by
another processor.
-/

namespace PiKernel.Ptable

open PiKernel.Conc

variable
    {slots cpus : Nat}

inductive Phase (slots : Nat) where
  /-- A process, without the lock. -/
  | unlocked
  /-- `fork`, without the lock: the slot is its child's. -/
  | building (p : Fin slots)
  /-- `fork`, without the lock: the slot has a parent. -/
  | born (p : Fin slots)
  /-- `sleep`, which has found the processor to hold the lock, without `ptable.lock`. -/
  | entering (lk : Lock)
  /-- `sleep`, with both locks. -/
  | handing (lk : Lock)
  | locked
  /-- `fork`, with the lock. -/
  | allocated (p : Fin slots)
  /-- The process is no longer `RUNNING`, and calls `sched`. -/
  | leaving
  /-- The process is a zombie, and calls `sched`. -/
  | dying
  /-- A panic, or the continuation of a zombie. -/
  | dead
  /-- `scheduler`, without the lock. -/
  | idle
  | choosing
  /-- `scheduler` has chosen the process, and switches to it. -/
  | chosen (p : Fin slots)
  /-- `scheduler` has been switched to. -/
  | back
  deriving DecidableEq

/-- What a processor is doing, whether or not it holds the lock. -/
inductive Role (slots : Nat) where
  | process
  | leaving
  | dying
  | scheduler
  | chosen (p : Fin slots)
  | back
  deriving DecidableEq

namespace Phase

def role : Phase slots → Role slots
  | .unlocked | .building _ | .born _ | .entering _ | .handing _ | .locked | .allocated _
  | .dead =>
      .process
  | .leaving => .leaving
  | .dying => .dying
  | .idle | .choosing => .scheduler
  | .chosen p => .chosen p
  | .back => .back

/-- Does the processor hold `ptable.lock`? -/
def holds : Phase slots → Bool
  | .unlocked | .building _ | .born _ | .entering _ | .dead | .idle => false
  | _ => true

/-- The slot that `fork` fills. -/
def embryo : Phase slots → Option (Fin slots)
  | .building p | .born p | .allocated p => some p
  | _ => none

/-- The lock that `sleep` will give up. -/
def keeps : Phase slots → Option Lock
  | .entering lk | .handing lk => some lk
  | _ => none

end Phase

/-- The phase after a statement, if it may stand here. -/
def permitted : Phase slots → Stmt slots → Option (Phase slots)
  | .dead, _ => some .dead
  | .unlocked, stmt =>
      match stmt with
      | .user | .kernel | .slept _ | .checkInit | .forkret | .acquiresleep _ | .unlock _
      | .returnPid _ => some .unlocked
      | .acquire lk => if lk = .ptable then some .locked else some .unlocked
      | .release lk => if lk = .ptable then none else some .unlocked
      | .sleep _ lk => if lk = .ptable then none else some (.entering lk)
      | .panic message =>
          if message = "proc_alloc: cannot alloc kstack.\n" then some .dead else none
      | _ => none
  | .building p, stmt =>
      match stmt with
      | .copyuvm q => if q = p then some .unlocked else none
      | .setParent q => if q = p then some (.born p) else none
      | _ => none
  | .born p, stmt => if stmt = .setChildRunnable p then some .unlocked else none
  | .entering lk, stmt => if stmt = .acquire .ptable then some (.handing lk) else none
  | .handing lk, stmt => if stmt = .release lk ∧ lk ≠ .ptable then some .locked else none
  | .locked, stmt =>
      match stmt with
      | .release lk => if lk = .ptable then some .unlocked else none
      | .sleep _ lk => if lk = .ptable then some .locked else none
      | .clearChan | .slept _ | .wakeup1 _ | .drop_priority | .raise_priority
      | .set_cpus_allowed _ => some .locked
      | .setSleeping _ | .setRunnable => some .leaving
      | .exit => some .dying
      | .wait | .proc_alloc => some .unlocked
      | _ => none
  | .allocated p, stmt => if stmt = .release .ptable then some (.building p) else none
  | .leaving, stmt => if stmt = .sched then some .locked else none
  | .dying, stmt => if stmt = .sched then some .dead else none
  | .idle, stmt =>
      match stmt with
      | .scheduler => some .idle
      | .acquire lk => if lk = .ptable then some .choosing else none
      | _ => none
  | .choosing, stmt =>
      match stmt with
      | .pick => some .choosing
      | .release lk => if lk = .ptable then some .idle else none
      | _ => none
  | .chosen p, stmt => if stmt = .swtch p then some .back else none
  | .back, stmt => if stmt = .clearProc then some .choosing else none

/-- The panics of a caller that breaks a rule, with the statement that panicked. -/
inductive Blamed : Code slots → Prop where
  | acquire {lk : Lock} (other : lk ≠ .ptable) (k : Code slots) :
      Blamed (.panic "acquire: spinlock already held\n" :: .acquire lk :: k)
  | release {lk : Lock} (other : lk ≠ .ptable) (k : Code slots) :
      Blamed (.panic "release: not locked\n" :: .release lk :: k)
  | sleep (chan : Option (Chan slots)) {lk : Lock} (other : lk ≠ .ptable) (k : Code slots) :
      Blamed (.panic "sleep: no lock held\n" :: .sleep chan lk :: k)
  | init (k : Code slots) : Blamed (.panic "init exiting" :: .checkInit :: k)

/-- A processor may go on with the code in the phase. -/
abbrev Disciplined (phase : Phase slots) (code : Code slots) : Prop :=
  Follows permitted phase code

/-! ## The functions follow the discipline -/

theorem disciplined_dead (code : Code slots) : Disciplined .dead code := by
  induction code with
  | nil => rfl
  | cons stmt code ih => exact (follows_cons (a := Phase.dead) rfl).mpr ih

theorem walk_sleep_spin (chan : Option (Chan slots)) {lk : Lock} (other : lk ≠ .ptable) :
    walk permitted .unlocked (Code.sleep chan lk) = some .unlocked := by
  simp [Code.sleep, permitted, other]

theorem walk_sleep_ptable (chan : Option (Chan slots)) :
    walk permitted .locked (Code.sleep chan .ptable) = some .locked :=
  rfl

theorem walk_firstProcess :
    walk permitted .unlocked (Code.firstProcess : Code slots) = some .unlocked :=
  rfl

/-- A trap ends where it began, or in `exit`. -/
theorem disciplined_entry (entry : Entry) {code : Code slots}
    (rest : Disciplined .unlocked code) : Disciplined .unlocked (entry.code ++ code) := by
  cases entry with
  | exit => exact (follows_append (b := Phase.dead) rfl).mpr (disciplined_dead code)
  | timer => exact (follows_append (b := Phase.unlocked) rfl).mpr rest
  | yield => exact (follows_append (b := Phase.unlocked) rfl).mpr rest
  | fork => exact (follows_append (b := Phase.unlocked) rfl).mpr rest
  | wait => exact (follows_append (b := Phase.unlocked) rfl).mpr rest
  | other => exact (follows_append (b := Phase.unlocked) rfl).mpr rest

theorem disciplined_call (function : Call slots) {code : Code slots}
    (rest : Disciplined .unlocked code) : Disciplined .unlocked (function.code ++ code) := by
  cases function with
  | sleep chan n =>
      have other : Lock.spin n ≠ .ptable := nofun
      exact (follows_append (walk_sleep_spin chan other)).mpr rest
  | acquire n => exact (follows_append (b := Phase.unlocked) rfl).mpr rest
  | release n => exact (follows_append (b := Phase.unlocked) rfl).mpr rest
  | wakeup chan => exact (follows_append (b := Phase.unlocked) rfl).mpr rest
  | acquiresleep l => exact (follows_append (b := Phase.unlocked) rfl).mpr rest
  | releasesleep l => exact (follows_append (b := Phase.unlocked) rfl).mpr rest

theorem disciplined_forkret : Disciplined .locked (Code.forkret : Code slots) :=
  rfl

end PiKernel.Ptable
