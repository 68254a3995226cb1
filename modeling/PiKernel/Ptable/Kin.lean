import PiKernel.Ptable.Pending

/-!
# Parents and children

A parent is never a zombie: `exit` passes its children on to `initproc`, which does not
exit.  A slot that is free, or that `fork` has not yet given a parent, is nobody's child.
-/

namespace PiKernel.Ptable

open PiKernel.Conc
open PiKernel.Trap (ProcState)

variable
    {slots cpus : Nat}
    {m m' : Machine slots cpus}
    {phase : Fin cpus → Phase slots}
    {c : Fin cpus}
    {q : Fin slots}

/-- The process can run, now or later. -/
def Machine.Alive (m : Machine slots cpus) (q : Fin slots) : Prop :=
  (m.proc q).state = .SLEEPING ∨ (m.proc q).state = .RUNNABLE ∨ (m.proc q).state = .RUNNING

theorem Machine.Alive.used (alive : m.Alive q) : (m.proc q).state ≠ .UNUSED := by
  rcases alive with state | state | state <;> simp [state]

theorem Machine.Alive.not_zombie (alive : m.Alive q) : (m.proc q).state ≠ .ZOMBIE := by
  rcases alive with state | state | state <;> simp [state]

/-! ## What a step does to one slot -/

namespace Machine.Ordered

/-- The phase in which a statement of a process is executed, read off the statement. -/
theorem embryo_of_stmt (ordered : m.Ordered phase) {stmt : Stmt slots} {k : Code slots}
    {p : Fin slots} (code : m.code c = stmt :: k)
    (of : stmt = .copyuvm p ∨ stmt = .setParent p ∨ stmt = .setChildRunnable p) :
    (phase c).embryo = some p ∧ (m.proc p).state = .EMBRYO := by
  have calm (message : String) : stmt ≠ .panic message := by
    rcases of with rfl | rfl | rfl <;> simp
  rcases ordered.next code calm with ⟨alive, ph, may, _⟩
  have embryo : (phase c).embryo = some p := by
    rcases of with rfl | rfl | rfl <;> cases at_ : phase c <;> rw [at_] at may alive <;>
      simp only [permitted] at may <;>
      first
      | exact absurd rfl alive
      | cases may
      | (split at may
         · next same => simp_all [Phase.embryo]
         · cases may)
  exact ⟨embryo, ordered.embryo c p embryo⟩

/-- The process that executes a statement of the kernel under the lock is running. -/
theorem locked_of_stmt (ordered : m.Ordered phase) {stmt : Stmt slots} {k : Code slots}
    (code : m.code c = stmt :: k)
    (of : stmt = .exit ∨ stmt = .wait ∨ stmt = .proc_alloc ∨ (∃ chan, stmt = .wakeup1 chan) ∨
      (∃ chan, stmt = .setSleeping chan) ∨ stmt = .setRunnable) :
    phase c = .locked := by
  have calm (message : String) : stmt ≠ .panic message := by
    rcases of with rfl | rfl | rfl | ⟨_, rfl⟩ | ⟨_, rfl⟩ | rfl <;> simp
  rcases ordered.next code calm with ⟨alive, ph, may, _⟩
  rcases of with rfl | rfl | rfl | ⟨_, rfl⟩ | ⟨_, rfl⟩ | rfl <;> cases at_ : phase c <;>
    rw [at_] at may alive <;>
    first
    | rfl
    | exact absurd rfl alive
    | cases may

/-- The process that is made a parent is running. -/
theorem running_of_born (ordered : m.Ordered phase) {me p : Fin slots} {k : Code slots}
    (here : m.current c = some me) (code : m.code c = .setParent p :: k) :
    (m.proc me).state = .RUNNING := by
  have embryo := (ordered.embryo_of_stmt code (Or.inr (Or.inl rfl))).1
  have allowed := ordered.state c me here
  cases at_ : phase c <;> rw [at_] at embryo allowed <;> first | exact allowed | cases embryo

theorem running_of_locked (ordered : m.Ordered phase) {me : Fin slots}
    (here : m.current c = some me) (before : phase c = .locked) :
    (m.proc me).state = .RUNNING := by
  have allowed := ordered.state c me here
  rwa [before] at allowed

end Machine.Ordered

namespace Effect

theorem write_state {t t' : Table slots} {p : Fin slots} {proc : Proc slots}
    (written : t' = Function.update t p proc) :
    (t' q).state = if q = p then proc.state else (t q).state := by
  rw [written]
  split
  · next same => rw [same, Function.update_self]
  · next other => rw [Function.update_of_ne other]

theorem wakeup1_state (t : Table slots) (chan : Option (Chan slots)) :
    (t.wakeup1 chan q).state = (t q).state ∨
      (t q).state = .SLEEPING ∧ (t.wakeup1 chan q).state = .RUNNABLE := by
  rw [Table.wakeup1_apply]
  by_cases asleep : (t q).state = .SLEEPING ∧ (t q).chan = chan
  · exact Or.inr ⟨asleep.1, if_pos asleep⟩
  · exact Or.inl (if_neg asleep)

theorem exit_state (t : Table slots) (me : Fin slots) (initproc : Option (Fin slots))
    (other : q ≠ me) :
    (t.exit me initproc q).state = (t q).state ∨
      (t q).state = .SLEEPING ∧ (t.exit me initproc q).state = .RUNNABLE := by
  rw [Table.exit_apply]
  by_cases wakes : t.wakes me initproc q
  · have asleep : (t q).state = .SLEEPING := by
      simp only [Table.wakes, decide_eq_true_eq] at wakes
      exact wakes.1
    exact Or.inr ⟨asleep, (if_neg other).trans (if_pos wakes)⟩
  · exact Or.inl ((if_neg other).trans (if_neg wakes))

/-- How the state of a slot changes. -/
inductive OfState (c : Fin cpus) (m m' : Machine slots cpus) (q : Fin slots) : Prop where
  | same (state : (m'.proc q).state = (m.proc q).state)
  | alive (before : m.Alive q) (after : m'.Alive q)
  | taken (before : (m.proc q).state = .UNUSED) (after : (m'.proc q).state = .EMBRYO)
      (me : Fin slots) (k : Code slots) (here : m.current c = some me)
      (code : m.code c = .proc_alloc :: k)
  | dropped (before : (m.proc q).state = .EMBRYO) (after : (m'.proc q).state = .UNUSED)
      (k : Code slots) (code : m.code c = .copyuvm q :: k)
  | ready (before : (m.proc q).state = .EMBRYO) (after : (m'.proc q).state = .RUNNABLE)
      (k : Code slots) (code : m.code c = .setChildRunnable q :: k)
  | died (before : m.Alive q) (after : (m'.proc q).state = .ZOMBIE)
      (here : m.current c = some q) (k : Code slots) (code : m.code c = .exit :: k)
      (passed : m'.proc = m.proc.exit q m.initproc)
  | reaped (before : (m.proc q).state = .ZOMBIE) (after : (m'.proc q).state = .UNUSED)
      (me : Fin slots) (k : Code slots) (here : m.current c = some me)
      (code : m.code c = .wait :: k) (found : m.proc.zombie me = some q)
      (gone : (m'.proc q).parent = none)
      (stack : ∀ page, m'.stack page =
        (m.stack page && decide ((m.proc q).kstack ≠ some page)))
      (family : m'.family = .waited (m.pid me) (m.pid q) :: m.family)

theorem reap_here (t : Table slots) (p : Fin slots) :
    t.reap p p =
      { t p with
        killed := false
        state := .UNUSED
        pid := 0
        parent := none } := by
  unfold Table.reap
  rw [Function.update_self]

theorem reap_other (t : Table slots) {p : Fin slots} (other : q ≠ p) : t.reap p q = t q := by
  unfold Table.reap
  rw [Function.update_of_ne other]

theorem ofState (effect : Effect c m m') (ordered : m.Ordered phase) (q : Fin slots) :
    OfState c m m' q := by
  cases effect with
  | quiet proc _ _ => exact .same (proc q).state
  | alloc me p page k here code unused _ proc _ _ _ _ _ =>
      by_cases same : q = p
      · subst same
        exact .taken unused (by rw [proc, Machine.Ordered.alloc_state]) me k here code
      · exact .same (by rw [proc, Machine.Ordered.alloc_other page m.nextpid same])
  | discard p k code proc _ _ _ _ _ =>
      by_cases same : q = p
      · subst same
        refine .dropped (ordered.embryo_of_stmt code (Or.inl rfl)).2 ?_ k code
        rw [write_state proc, if_pos rfl]
      · exact .same (by rw [write_state proc, if_neg same])
  | born me p k _ _ proc _ _ =>
      by_cases same : q = p
      · subst same
        exact .same (by rw [write_state proc, if_pos rfl])
      · exact .same (by rw [write_state proc, if_neg same])
  | ready p k code proc _ _ =>
      by_cases same : q = p
      · subst same
        refine .ready (ordered.embryo_of_stmt code (Or.inr (Or.inr rfl))).2 ?_ k code
        rw [write_state proc, if_pos rfl]
      · exact .same (by rw [write_state proc, if_neg same])
  | forked me p k _ _ proc _ _ | noChild me k _ _ _ proc _ _ => exact .same (by rw [proc])
  | exiting me k _ _ _ _ proc _ _ => exact .same (by rw [proc])
  | run p runnable proc _ _ =>
      by_cases same : q = p
      · subst same
        refine .alive (Or.inr (Or.inl runnable)) (Or.inr (Or.inr ?_))
        rw [write_state proc, if_pos rfl]
      · exact .same (by rw [write_state proc, if_neg same])
  | leave me chan state stmt k here code leaves proc _ _ =>
      by_cases same : q = me
      · subst same
        have before : phase c = .locked := by
          apply ordered.locked_of_stmt code
          rcases leaves with ⟨_, rfl⟩ | ⟨_, rfl⟩
          · exact Or.inr (Or.inr (Or.inr (Or.inr (Or.inl ⟨_, rfl⟩))))
          · exact Or.inr (Or.inr (Or.inr (Or.inr (Or.inr rfl))))
        refine .alive (Or.inr (Or.inr (ordered.running_of_locked here before))) ?_
        unfold Machine.Alive
        rw [write_state proc, if_pos rfl]
        rcases leaves with ⟨rfl, _⟩ | ⟨rfl, _⟩
        · exact Or.inl rfl
        · exact Or.inr (Or.inl rfl)
      · exact .same (by rw [write_state proc, if_neg same])
  | wakeup chan k _ proc _ _ =>
      rcases wakeup1_state m.proc chan (q := q) with same | ⟨asleep, awake⟩
      · exact .same (by rw [proc, same])
      · exact .alive (Or.inl asleep) (Or.inr (Or.inl (by rw [proc, awake])))
  | exit me k here code proc _ _ =>
      by_cases same : q = me
      · subst same
        have before := ordered.locked_of_stmt code (Or.inl rfl)
        refine .died (Or.inr (Or.inr (ordered.running_of_locked here before))) ?_ here k code
          proc
        rw [proc, Table.exit_apply]
        exact if_pos rfl
      · rcases exit_state m.proc me m.initproc same with kept | ⟨asleep, awake⟩
        · exact .same (by rw [proc, kept])
        · exact .alive (Or.inl asleep) (Or.inr (Or.inl (by rw [proc, awake])))
  | reap me p k here code found proc _ _ _ stack family =>
      by_cases same : q = p
      · subst same
        refine .reaped (Table.zombie_state found).2 ?_ me k here code found ?_ stack family <;>
          rw [proc, reap_here]
      · exact .same (by rw [proc, reap_other m.proc same])

/-- How the parent of a slot changes. -/
inductive OfParent (c : Fin cpus) (m m' : Machine slots cpus) (q : Fin slots) : Prop where
  | same (parent : (m'.proc q).parent = (m.proc q).parent)
  | born (me : Fin slots) (k : Code slots) (here : m.current c = some me)
      (code : m.code c = .setParent q :: k) (parent : (m'.proc q).parent = some me)
  | adopted (me : Fin slots) (k : Code slots) (here : m.current c = some me)
      (code : m.code c = .exit :: k) (before : (m.proc q).parent = some me)
      (parent : (m'.proc q).parent = m.initproc)
  | reaped (me : Fin slots) (k : Code slots) (here : m.current c = some me)
      (code : m.code c = .wait :: k) (found : m.proc.zombie me = some q)
      (parent : (m'.proc q).parent = none)

theorem write_parent {t t' : Table slots} {p : Fin slots} {proc : Proc slots}
    (written : t' = Function.update t p proc) (same : proc.parent = (t p).parent) :
    (t' q).parent = (t q).parent := by
  rw [written]
  by_cases here : q = p
  · rw [here, Function.update_self, same]
  · rw [Function.update_of_ne here]

theorem alloc_parent (t : Table slots) (p : Fin slots) (page pid : Nat) :
    (t.alloc p page pid q).parent = (t q).parent := by
  unfold Table.alloc
  by_cases here : q = p
  · rw [here, Function.update_self]
  · rw [Function.update_of_ne here]

theorem ofParent (effect : Effect c m m') (q : Fin slots) : OfParent c m m' q := by
  cases effect with
  | quiet proc _ _ => exact .same (proc q).parent
  | alloc me p page k _ _ _ _ proc _ _ _ _ _ => exact .same (by rw [proc, alloc_parent])
  | discard p k _ proc _ _ _ _ _ => exact .same (write_parent proc rfl)
  | born me p k here code proc _ _ =>
      by_cases same : q = p
      · subst same
        exact .born me k here code (by rw [proc, Function.update_self])
      · exact .same (by rw [proc, Function.update_of_ne same])
  | ready p k _ proc _ _ => exact .same (write_parent proc rfl)
  | forked me p k _ _ proc _ _ | noChild me k _ _ _ proc _ _ => exact .same (by rw [proc])
  | exiting me k _ _ _ _ proc _ _ => exact .same (by rw [proc])
  | run p _ proc _ _ => exact .same (write_parent proc rfl)
  | leave me chan state stmt k _ _ _ proc _ _ => exact .same (write_parent proc rfl)
  | wakeup chan k _ proc _ _ => exact .same (by rw [proc, Table.wakeup1_apply])
  | exit me k here code proc _ _ =>
      by_cases child : (m.proc q).parent = some me
      · refine .adopted me k here code child ?_
        rw [proc, Table.exit_apply]
        exact if_pos child
      · refine .same ?_
        rw [proc, Table.exit_apply]
        exact if_neg child
  | reap me p k here code found proc _ _ _ _ _ =>
      by_cases same : q = p
      · subst same
        exact .reaped me k here code found (by rw [proc, reap_here])
      · exact .same (by rw [proc, reap_other m.proc same])

/-- A slot is written, and keeps its pid. -/
theorem write_pid {p : Fin slots} {proc : Proc slots}
    (written : m'.proc = Function.update m.proc p proc) (same : proc.pid = m.pid p)
    (q : Fin slots) : m'.pid q = m.pid q := by
  unfold Machine.pid
  rw [written]
  by_cases here : q = p
  · rw [here, Function.update_self, same]
    rfl
  · rw [Function.update_of_ne here]

/-- Only `proc_alloc` and `wait` write a pid. -/
theorem ofPid (effect : Effect c m m') (q : Fin slots) :
    m'.pid q = m.pid q ∨
      (m.proc q).state = .UNUSED ∧ m'.pid q = m.nextpid ∧ m'.nextpid = m.nextpid + 1 ∨
      (m'.proc q).state = .UNUSED := by
  cases effect with
  | quiet proc _ _ => exact Or.inl (proc q).pid
  | alloc me p page k _ _ unused _ proc nextpid _ _ _ _ =>
      by_cases same : q = p
      · subst same
        refine Or.inr (Or.inl ⟨unused, ?_, nextpid⟩)
        unfold Machine.pid Table.alloc at *
        rw [proc, Function.update_self]
      · exact Or.inl (congrArg Proc.pid (by
          rw [proc, Machine.Ordered.alloc_other page m.nextpid same]))
  | discard p k _ proc _ _ _ _ _ => exact Or.inl (write_pid proc rfl q)
  | born me p k _ _ proc _ _ => exact Or.inl (write_pid proc rfl q)
  | ready p k _ proc _ _ => exact Or.inl (write_pid proc rfl q)
  | forked me p k _ _ proc _ _ | noChild me k _ _ _ proc _ _ =>
      exact Or.inl (congrArg Proc.pid (by rw [proc]))
  | exiting me k _ _ _ _ proc _ _ => exact Or.inl (congrArg Proc.pid (by rw [proc]))
  | run p _ proc _ _ => exact Or.inl (write_pid proc rfl q)
  | leave me chan state stmt k _ _ _ proc _ _ => exact Or.inl (write_pid proc rfl q)
  | wakeup chan k _ proc _ _ =>
      left
      unfold Machine.pid
      rw [proc, Table.wakeup1_apply]
  | exit me k _ _ proc _ _ =>
      left
      unfold Machine.pid
      rw [proc, Table.exit_apply]
  | reap me p k _ _ _ proc _ _ _ _ _ =>
      by_cases same : q = p
      · subst same
        exact Or.inr (Or.inr (by rw [proc, reap_here]))
      · exact Or.inl (congrArg Proc.pid (by rw [proc, reap_other m.proc same]))

theorem initproc (effect : Effect c m m') : m'.initproc = m.initproc := by
  cases effect with
  | quiet _ kept _ | born _ _ _ _ _ _ kept _ | ready _ _ _ _ kept _ | forked _ _ _ _ _ _ kept _
  | run _ _ _ kept _ | leave _ _ _ _ _ _ _ _ _ kept _ | wakeup _ _ _ _ kept _
  | exiting _ _ _ _ _ _ _ kept _ | exit _ _ _ _ _ kept _ | noChild _ _ _ _ _ _ kept _ =>
      exact kept.initproc
  | alloc _ _ _ _ _ _ _ _ _ _ initproc _ _ _ => exact initproc
  | discard _ _ _ _ _ initproc _ _ _ => exact initproc
  | reap _ _ _ _ _ _ _ _ initproc _ _ _ => exact initproc

end Effect

/-! ## Parents are alive -/

/-- `fork` has taken the slot, and has not given it a parent. -/
inductive Expects (p : Fin slots) : Code slots → Prop where
  | copyuvm (k : Code slots) : Expects p (.copyuvm p :: k)
  | setParent (k : Code slots) : Expects p (.setParent p :: k)
  | release (k : Code slots) (later : Expects p k) : Expects p (.release .ptable :: k)

/-- `exit` has passed its check, and the process is not yet a zombie. -/
def Code.exits : Code slots → Bool
  | [] => false
  | .exit :: _ => true
  | .checkInit :: _ => false
  | _ :: k => Code.exits k

structure Machine.Kin (m : Machine slots cpus) : Prop where
  initproc : ∃ i, m.initproc = some i ∧ m.Alive i
  parent : ∀ p q, (m.proc p).parent = some q → (m.proc p).state ≠ .UNUSED ∧ m.Alive q
  root : ∀ i, m.initproc = some i → (m.proc i).parent = none
  self : ∀ p, (m.proc p).parent ≠ some p
  orphan : ∀ c p, Expects p (m.code c) → (m.proc p).parent = none
  saved : ∀ p, (m.proc p).state = .UNUSED → m.context p = none
  away : ∀ c p stmt rest, m.Executes c p (stmt :: rest) → m.context p = none
  exits : ∀ p k, m.Continues p k → Code.exits k → some p ≠ m.initproc

namespace Next

variable
    {me : Fin slots}
    {stmt : Stmt slots}
    {rest k : Code slots}

theorem exits_sleep (chan : Option (Chan slots)) (lk : Lock) (k : Code slots) :
    Code.exits (Code.sleep chan lk ++ k) = Code.exits k := by
  unfold Code.sleep
  split <;> rfl

theorem exits_call (function : Call slots) (k : Code slots) :
    Code.exits (function.code ++ k) = Code.exits k := by
  cases function with
  | sleep chan n => exact exits_sleep chan _ k
  | _ => rfl

/-- The end of `exit` is reached through its check only. -/
theorem exits (next : Next m me stmt rest k) (exits : Code.exits k) :
    Code.exits (stmt :: rest) ∨ stmt = .checkInit ∧ k = rest ∧ some me ≠ m.initproc := by
  cases next with
  | tail stmt checked rest =>
      cases stmt with
      | checkInit => exact Or.inr ⟨rfl, rfl, checked rfl⟩
      | exit => exact Or.inl rfl
      | _ => exact Or.inl exits
  | trap entry allowed rest =>
      cases entry with
      | exit => cases exits
      | _ => exact Or.inl exits
  | call function rest owner =>
      rw [exits_call] at exits
      exact Or.inl exits
  | sleepInWait childless rest | sleepOnLock l locked rest =>
      rw [exits_sleep] at exits
      exact Or.inl exits
  | _ => exact Or.inl exits

end Next

/-! ## A slot without a parent -/

namespace Expects

variable
    {p : Fin slots}
    {stmt : Stmt slots}
    {rest k : Code slots}

/-- Where `fork` is. -/
theorem ofPhase (expects : Expects p k) {ph : Phase slots} (follows : Disciplined ph k) :
    ph = .building p ∨ ph = .allocated p ∨ ph = .dead := by
  induction expects generalizing ph with
  | copyuvm k | setParent k =>
      rcases follows.head with ⟨after, may, _⟩
      cases ph <;> simp_all [permitted]
  | release k later ih =>
      rcases follows.head with ⟨after, may, follows⟩
      rcases ih follows with rfl | rfl | rfl <;> cases ph <;> simp [permitted] at may <;>
        grind

/-- The statement before. -/
theorem before (expects : Expects p rest) {ph : Phase slots} {before : Phase slots}
    (may : permitted before stmt = some ph) (follows : Disciplined ph rest)
    (alive : before ≠ .dead) (calm : ∀ message, stmt ≠ .panic message)
    (stays : stmt ≠ .sched) : stmt = .release .ptable := by
  rcases expects.ofPhase follows with rfl | rfl | rfl <;> cases before <;> cases stmt <;>
    simp [permitted] at may <;> grind

/-- Only the allocation of a slot makes a process expect it. -/
theorem of_next {me : Fin slots} {ph before : Phase slots} (expects : Expects p k)
    (next : Next m me stmt rest k)
    (may : permitted before stmt = some ph) (follows : Disciplined ph rest)
    (alive : before ≠ .dead) (calm : ∀ message, stmt ≠ .panic message)
    (stays : stmt ≠ .sched) :
    (∀ q, stmt ≠ .setParent q) ∧ Expects p (stmt :: rest) ∨
      stmt = .proc_alloc ∧ (m.proc p).state = .UNUSED := by
  -- a function that ends with a release does not return to the middle of `fork`
  have ended (later : Expects p rest) (unlocked : ph = .unlocked) : False := by
    subst unlocked
    rcases later.ofPhase follows with never | never | never <;> cases never
  cases next with
  | tail stmt checked rest =>
      rcases expects.before may follows alive calm stays with rfl
      exact Or.inl ⟨by simp, .release rest expects⟩
  | allocated q unused rest =>
      rcases expects with _ | _ | ⟨_, ⟨⟩⟩
      exact Or.inr ⟨rfl, unused⟩
  | copied q rest =>
      cases expects
      exact Or.inl ⟨by simp, .copyuvm rest⟩
  | waitEnds rest | allocFails rest =>
      rcases expects with _ | _ | ⟨_, later⟩
      apply (ended later _).elim
      cases before <;> simp_all [permitted]
  | noStack rest =>
      rcases expects with _ | _ | ⟨_, later⟩
      cases later
  | lockTaken l rest => cases expects
  | trap entry allowed rest => cases entry <;> cases expects
  | call function rest owner => cases function <;> cases expects
  | panic stmt message rest => cases expects
  | sleepInWait childless rest => cases expects
  | first rest => cases expects
  | sleepOnLock l locked rest => cases expects

theorem of_switched (expects : Expects p k) (switched : Switched m m' c k) : False := by
  cases switched with
  | resumed q k rest code current current' saved follows =>
      rcases expects.ofPhase follows with never | never | never <;> cases never
  | idle k follows =>
      rcases expects.ofPhase follows with never | never | never <;> cases never
  | empty | back k | chosen q k => cases expects
  | scheduler k => cases expects

end Expects

/-! ## The invariant -/

theorem Machine.Alive.of_state (alive : m.Alive q)
    (state : (m'.proc q).state = (m.proc q).state) : m'.Alive q := by
  unfold Machine.Alive at *
  rwa [state]

theorem Machine.Alive.not_embryo (alive : m.Alive q) : (m.proc q).state ≠ .EMBRYO := by
  rcases alive with state | state | state <;> rw [state] <;> exact fun never => by cases never

/-- A process that can run can run after a step, unless it has just exited. -/
theorem Effect.alive (effect : Effect c m m') (ordered : m.Ordered phase) (alive : m.Alive q) :
    m'.Alive q ∨
      m.current c = some q ∧ (∃ k, m.code c = .exit :: k) ∧
        m'.proc = m.proc.exit q m.initproc := by
  cases effect.ofState ordered q with
  | same state => exact Or.inl (alive.of_state state)
  | alive _ after => exact Or.inl after
  | died _ _ here k code passed => exact Or.inr ⟨here, ⟨k, code⟩, passed⟩
  | taken before => exact absurd before alive.used
  | dropped before => exact absurd before alive.not_embryo
  | ready before => exact absurd before alive.not_embryo
  | reaped before => exact absurd before alive.not_zombie

namespace Machine.Kin

/-- A processor executes the end of `exit`. -/
theorem exit_other (kin : m.Kin) {k : Code slots} (here : m.current c = some q)
    (code : m.code c = .exit :: k) : some q ≠ m.initproc :=
  kin.exits q _ (Or.inr ⟨c, executes_cons here code rfl⟩) rfl

theorem initproc_step (kin : m.Kin) (ordered : m.Ordered phase) (effect : Effect c m m') :
    ∃ i, m'.initproc = some i ∧ m'.Alive i := by
  rcases kin.initproc with ⟨i, same, alive⟩
  refine ⟨i, effect.initproc.trans same, ?_⟩
  rcases effect.alive ordered alive with after | ⟨here, ⟨k, code⟩, _⟩
  · exact after
  · exact absurd same.symm (kin.exit_other here code)

theorem parent_step (kin : m.Kin) (ordered : m.Ordered phase) (effect : Effect c m m')
    {p q : Fin slots} (parent : (m'.proc p).parent = some q) :
    (m'.proc p).state ≠ .UNUSED ∧ m'.Alive q := by
  -- a slot that has a parent is not given up
  have stays (used : (m.proc p).state ≠ .UNUSED)
      (dropped : ∀ k, m.code c ≠ .copyuvm p :: k) : (m'.proc p).state ≠ .UNUSED := by
    cases effect.ofState ordered p with
    | same state => rwa [state]
    | alive _ after => exact after.used
    | taken before => exact absurd before used
    | dropped _ _ k code => exact absurd code (dropped k)
    | ready _ after | died _ after => rw [after]; exact fun never => by cases never
    | reaped _ _ me k _ code found gone =>
        rw [gone] at parent
        cases parent
  cases effect.ofParent p with
  | same same =>
      rw [same] at parent
      rcases kin.parent p q parent with ⟨used, alive⟩
      constructor
      · apply stays used
        intro k code
        have none := kin.orphan c p (code ▸ .copyuvm k)
        rw [none] at parent
        cases parent
      · rcases effect.alive ordered alive with after | ⟨here, ⟨k, code⟩, passed⟩
        · exact after
        · have adopted : (m'.proc p).parent = m.initproc := by
            rw [passed, Table.exit_apply]
            exact if_pos parent
          rw [same, parent] at adopted
          exact absurd adopted (kin.exit_other here code)
  | born me k here code mine =>
      rw [mine] at parent
      cases parent
      have embryo := (ordered.embryo_of_stmt code (Or.inr (Or.inl rfl))).2
      have running := ordered.running_of_born here code
      constructor
      · apply stays
        · rw [embryo]
          exact fun never => by cases never
        · intro k' code'
          rw [code] at code'
          cases code'
      · rcases effect.alive ordered (Or.inr (Or.inr running)) with after | ⟨_, ⟨k', code'⟩, _⟩
        · exact after
        · rw [code] at code'
          cases code'
  | adopted me k here code before adopted =>
      rcases kin.initproc_step ordered effect with ⟨i, same, alive⟩
      rw [effect.initproc, ← adopted, parent] at same
      cases same
      refine ⟨stays (kin.parent p me before).1 ?_, alive⟩
      intro k' code'
      rw [code] at code'
      cases code'
  | reaped me k _ _ _ gone =>
      rw [gone] at parent
      cases parent

/-- `initproc` is nobody's child. -/
theorem root_step (kin : m.Kin) (ordered : m.Ordered phase) (effect : Effect c m m')
    {i : Fin slots} (same : m'.initproc = some i) : (m'.proc i).parent = none := by
  rw [effect.initproc] at same
  rcases kin.initproc with ⟨i', same', alive⟩
  cases same.symm.trans same'
  have none := kin.root i same
  cases effect.ofParent i with
  | same same => exact same.trans none
  | born me k here code _ =>
      exact absurd (ordered.embryo_of_stmt code (Or.inr (Or.inl rfl))).2 alive.not_embryo
  | adopted me k here code before _ =>
      rw [none] at before
      cases before
  | reaped me k here code found gone => exact gone

theorem self_step (kin : m.Kin) (ordered : m.Ordered phase) (effect : Effect c m m')
    (p : Fin slots) : (m'.proc p).parent ≠ some p := by
  cases effect.ofParent p with
  | same same =>
      rw [same]
      exact kin.self p
  | born me k here code mine =>
      rw [mine]
      intro same
      cases same
      have running := ordered.running_of_born here code
      rw [(ordered.embryo_of_stmt code (Or.inr (Or.inl rfl))).2] at running
      cases running
  | adopted me k here code before adopted =>
      rw [adopted]
      intro same
      rw [kin.root p same] at before
      cases before
  | reaped me k here code found gone =>
      rw [gone]
      exact fun never => by cases never

/-- A slot without a parent gets one from `fork` only. -/
theorem orphan_of {p : Fin slots} (effect : Effect c m m')
    (none : (m.proc p).parent = none)
    (born : ∀ k, m.code c ≠ .setParent p :: k) : (m'.proc p).parent = .none := by
  cases effect.ofParent p with
  | same same => exact same.trans none
  | born me k here code mine => exact absurd code (born k)
  | adopted me k here code before adopted =>
      rw [none] at before
      cases before
  | reaped me k here code found gone => exact gone

theorem orphan_step (kin : m.Kin) (ordered : m.Ordered phase) {a : Action slots}
    (step : exec c a m = some m') {c' : Fin cpus} {p : Fin slots}
    (expects : Expects p (m'.code c')) : (m'.proc p).parent = none := by
  have effect := exec_effect step
  rcases exec_code step ordered with ⟨stmt, rest, k, code, code', _, how⟩
  by_cases same : c' = c
  · subst same
    rw [code', Function.update_self] at expects
    -- the processor expected the slot before, or takes it now
    have expected (other : ∀ q, stmt ≠ .setParent q) (before : Expects p (stmt :: rest)) :
        (m'.proc p).parent = none := by
      apply orphan_of effect (kin.orphan c' p (code ▸ before))
      intro k' born
      rw [code] at born
      exact other p (List.cons.inj born).1
    rcases how with advance | switched
    · rcases ordered.next code advance.calm with ⟨alive, ph, may, follows⟩
      cases here : m.current c' with
      | none =>
          rcases advance.idle here with rfl | ⟨message, rfl⟩
          · rcases expects.before may follows alive advance.calm advance.stays with rfl
            exact expected (by simp) (.release k expects)
          · cases expects
      | some me =>
          rcases expects.of_next (advance.next me here) may follows alive advance.calm
            advance.stays with ⟨other, before⟩ | ⟨alloc, unused⟩
          · exact expected other before
          · apply orphan_of effect
            · by_contra parent
              rcases Option.ne_none_iff_exists'.mp parent with ⟨q, parent⟩
              exact (kin.parent p q parent).1 unused
            · intro k' other
              rw [code, alloc] at other
              cases other
    · exact (expects.of_switched switched).elim
  · rw [code', Function.update_of_ne same] at expects
    apply orphan_of effect (kin.orphan c' p expects)
    intro k' other
    have mine := (ordered.embryo_of_stmt other (Or.inr (Or.inl rfl))).1
    rcases expects.ofPhase (ordered.code c') with at_ | at_ | at_
    · exact same (ordered.owner c' c p (by rw [at_]; rfl) mine)
    · exact same (ordered.owner c' c p (by rw [at_]; rfl) mine)
    · have blamed := ordered.dead c' at_
      generalize m.code c' = there at blamed expects
      cases blamed <;> cases expects

/-- A process that goes on has no saved continuation. -/
theorem away_step (kin : m.Kin) (ordered : m.Ordered phase) {a : Action slots}
    (step : exec c a m = some m') {c' : Fin cpus} {p : Fin slots} {stmt : Stmt slots}
    {rest : Code slots} (there : m'.Executes c' p (stmt :: rest)) : m'.context p = none := by
  by_contra some
  rcases Option.ne_none_iff_exists'.mp some with ⟨k, saved⟩
  rcases exec_executes step ordered there with ⟨other, before⟩ | ⟨rfl, how⟩
  · have none := kin.away c' p stmt rest before
    rcases exec_context step ordered saved with ⟨same, _⟩ | left | ⟨_, unused, _⟩
    · rw [none] at same
      cases same
    · exact other (ordered.one c' c p before.1 left.1)
    · exact ordered.used before.1 unused
  · rcases how with never | ⟨rest', swtch, _⟩ | ⟨stmt', rest', here, stays, _⟩
    · cases never
    · rcases exec_context step ordered saved with ⟨_, other⟩ | left | ⟨_, _, _, me, k', alloc⟩
      · exact other rest' swtch
      · rw [left.2.1] at swtch
        cases swtch
      · rw [alloc.2.1] at swtch
        cases swtch
    · have none := kin.away c' p stmt' rest' here
      rcases exec_context step ordered saved with ⟨same, _⟩ | left | ⟨_, unused, _⟩
      · rw [none] at same
        cases same
      · have same := here.2.1.symm.trans left.2.1
        exact stays (List.cons.inj same).1
      · exact ordered.used here.1 unused

theorem exits_step (kin : m.Kin) (ordered : m.Ordered phase) {a : Action slots}
    (step : exec c a m = some m') {p : Fin slots} {k : Code slots} (there : m'.Continues p k)
    (exits : Code.exits k) : some p ≠ m'.initproc := by
  rw [(exec_effect step).initproc]
  rcases exec_continues step ordered there with
    before | rfl | ⟨stmt, rest, executes, next⟩ | ⟨rfl, _⟩
  · exact kin.exits p k before exits
  · cases exits
  · rcases next.exits exits with before | ⟨_, _, other⟩
    · exact kin.exits p _ (Or.inr ⟨c, executes⟩) before
    · exact other
  · cases exits

theorem saved_step (kin : m.Kin) (ordered : m.Ordered phase) {a : Action slots}
    (step : exec c a m = some m') {p : Fin slots} (unused : (m'.proc p).state = .UNUSED) :
    m'.context p = none := by
  have kept (before : (m.proc p).state = .UNUSED) : m'.context p = none := by
    by_contra some
    rcases Option.ne_none_iff_exists'.mp some with ⟨k, saved⟩
    rcases exec_context step ordered saved with ⟨saved, _⟩ | left | ⟨_, _, embryo, _⟩
    · rw [kin.saved p before] at saved
      cases saved
    · exact ordered.used left.1 before
    · rw [embryo] at unused
      cases unused
  cases (exec_effect step).ofState ordered p with
  | same state => exact kept (state.symm.trans unused)
  | alive _ after => exact absurd unused after.used
  | taken before => exact kept before
  | ready _ after | died _ after =>
      rw [after] at unused
      cases unused
  | dropped before after k code =>
      unfold exec at step
      rw [code] at step
      rcases Option.bind_eq_some_iff.mp step with ⟨me, _, step⟩
      simp only [Stmt.runProc, Stmt.runCopyuvm] at step
      split at step <;> cases step
      · change (m.proc p).state = .UNUSED at after
        rw [before] at after
        cases after
      · exact Function.update_self p none m.context
  | reaped before after me k here code found gone =>
      unfold exec at step
      rw [code] at step
      simp only [here, Option.bind_some, Stmt.runProc, Stmt.runWait, found,
        Option.some.injEq] at step
      subst step
      exact Function.update_self p none m.context

/-- The invariant is kept by every step. -/
theorem step (kin : m.Kin) (ordered : m.Ordered phase) {a : Action slots}
    (step : exec c a m = some m') : m'.Kin where
  initproc := kin.initproc_step ordered (exec_effect step)
  parent _ _ := kin.parent_step ordered (exec_effect step)
  root _ := kin.root_step ordered (exec_effect step)
  self := kin.self_step ordered (exec_effect step)
  orphan _ _ := kin.orphan_step ordered step
  saved _ := kin.saved_step ordered step
  away _ _ _ _ := kin.away_step ordered step
  exits _ _ := kin.exits_step ordered step

end Machine.Kin

/-! ## Boot -/

/-- A slot that is not used has no continuation while `main` creates processes. -/
theorem saved_of_initProcess {program : Program} {page : Nat}
    (created : initProcess program page m = some m')
    (saved : ∀ p, (m.proc p).state = .UNUSED → m.context p = none) {p : Fin slots}
    (unused : (m'.proc p).state = .UNUSED) : m'.context p = none := by
  rcases Machine.Fresh.created_of_initProcess created with ⟨q, created⟩
  rw [created.rest]
  change Function.update m.context q (some Code.forkret) p = none
  by_cases same : p = q
  · subst same
    rw [created.here] at unused
    cases unused
  · rw [created.other p same] at unused
    rw [Function.update_of_ne same, saved p unused]

theorem saved_of_main {page : Nat} {idle : Fin 3 → Nat}
    (booted : main slots cpus page idle = some m) (p : Fin slots)
    (unused : (m.proc p).state = .UNUSED) : m.context p = none := by
  unfold main at booted
  rcases Option.bind_eq_some_iff.mp booted with ⟨m₁, first, loop⟩
  have saved₁ (p : Fin slots) (unused : (m₁.proc p).state = .UNUSED) : m₁.context p = none :=
    saved_of_initProcess first (fun _ _ => rfl) unused
  change (user_idle_init (idle 0) m₁).bind (fun m₂ =>
    (user_idle_init (idle 1) m₂).bind fun m₃ =>
      (user_idle_init (idle 2) m₃).bind some) = some m at loop
  rcases Option.bind_eq_some_iff.mp loop with ⟨m₂, second, loop⟩
  rcases Option.bind_eq_some_iff.mp loop with ⟨m₃, third, loop⟩
  rcases Option.bind_eq_some_iff.mp loop with ⟨m₄, fourth, loop⟩
  cases loop
  exact saved_of_initProcess fourth
    (fun _ => saved_of_initProcess third fun _ => saved_of_initProcess second saved₁) unused

/-- No processor executes a process yet. -/
theorem Machine.Fresh.continues (fresh : m.Fresh) {p : Fin slots} {k : Code slots}
    (saved : ∀ p, (m.proc p).state = .UNUSED → m.context p = none)
    (there : m.Continues p k) : k = Code.forkret ∧ (m.proc p).state = .RUNNABLE := by
  rcases there with here | ⟨c, here, _⟩
  · rcases fresh.used p with unused | new
    · rw [saved p unused] at here
      cases here
    · rw [new.context] at here
      exact ⟨(Option.some.inj here).symm, new.state⟩
  · rw [fresh.current c] at here
    cases here

theorem Machine.Fresh.kin (fresh : m.Fresh) (init : ∃ i, m.initproc = some i)
    (saved : ∀ p, (m.proc p).state = .UNUSED → m.context p = none) : m.Kin where
  initproc := by
    rcases init with ⟨i, same⟩
    exact ⟨i, same, Or.inr (Or.inl (fresh.initproc i same).1)⟩
  parent p q parent := by
    rw [fresh.parent p] at parent
    cases parent
  root i _ := fresh.parent i
  self p := by
    rw [fresh.parent p]
    exact fun never => by cases never
  orphan _ p _ := fresh.parent p
  saved := saved
  away c p stmt rest there := by
    have here := there.1
    rw [fresh.current c] at here
    cases here
  exits p k there exits := by
    rw [(fresh.continues saved there).1] at exits
    cases exits

theorem Reachable.kin (reachable : Reachable m) : m.Kin := by
  induction reachable with
  | boot page idle booted =>
      rcases main_fresh booted with ⟨fresh, _, init⟩
      exact fresh.kin init (saved_of_main booted)
  | step before next ih =>
      cases next with
      | exec c a effect =>
          rcases before.scheduled with ⟨phase, ordered⟩
          exact ih.step ordered effect

end PiKernel.Ptable
