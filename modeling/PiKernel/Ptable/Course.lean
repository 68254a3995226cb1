import PiKernel.Ptable.Locks

/-!
# The course of a process

What a process still has to execute is the rest of some function, and the functions have
an order: `sleep` is called with the lock that it gives up, `unlock` stands between
`acquire` and `wakeup`, and `fork` returns the pid of the slot that it has filled.  A
second discipline on statements says so, for every process; each stage of it comes with
what the process can rely on there.
-/

namespace PiKernel.Ptable

open PiKernel.Conc
open PiKernel.Trap (ProcState)

variable
    {slots cpus : Nat}
    {m m' : Machine slots cpus}
    {phase : Fin cpus → Phase slots}
    {c : Fin cpus}
    {k rest : Code slots}
    {p q : Fin slots}

/-- Where a process is in the functions on locks and children. -/
inductive Stage (slots : Nat) where
  | any
  /-- `wait`, which has found no zombie -/
  | waiting
  /-- `acquiresleep`, with the inner lock -/
  | inner (l : Nat)
  /-- `acquiresleep`, which has found the lock to be taken -/
  | dozing (l : Nat)
  /-- `releasesleep`, before it has the inner lock -/
  | owner (l : Nat)
  | owning (l : Nat)
  /-- `releasesleep`, before it wakes up others -/
  | unlocked (l : Nat)
  /-- The inner lock is about to be released. -/
  | closing (l : Nat)
  /-- `sleep`, with the lock that it gives up -/
  | entering (chan : Option (Chan slots)) (lk : Lock)
  /-- `sleep`, with both locks -/
  | handing (chan : Option (Chan slots)) (lk : Lock)
  /-- `sleep`, with `ptable.lock` only -/
  | handed (chan : Option (Chan slots)) (lk : Lock)
  /-- `sleep`, after `p->state = SLEEPING` -/
  | asleep (chan : Option (Chan slots)) (lk : Lock)
  /-- `sleep`, after `p->chan = 0` -/
  | woken (lk : Lock)
  | resumed (lk : Lock)
  /-- `fork`, after `p->parent = thisproc()` -/
  | forks (q : Fin slots)
  /-- `fork`, about to return -/
  | returns (q : Fin slots)
  | dead

/-- The stage after a statement of the process, if it may stand here. -/
@[simp]
def track (p : Fin slots) : Stage slots → Stmt slots → Option (Stage slots)
  | .dead, _ => some .dead
  | .any, stmt =>
      match stmt with
      | .user | .kernel | .setRunnable | .sched | .wakeup1 _ | .checkInit | .exit | .wait
      | .proc_alloc | .copyuvm _ | .forkret | .drop_priority | .raise_priority
      | .set_cpus_allowed _ => some .any
      | .acquire (.inner l) => some (.inner l)
      | .acquire _ => some .any
      | .release (.inner _) => none
      | .release _ => some .any
      | .sleep chan (.spin n) => some (.entering chan (.spin n))
      | .setParent q => some (.forks q)
      | .panic _ => some .dead
      | _ => none
  | .waiting, stmt =>
      if stmt = .sleep (some (.proc p)) .ptable then some (.handed (some (.proc p)) .ptable)
      else none
  | .inner l, stmt => if stmt = .acquiresleep l then some .any else none
  | .dozing l, stmt =>
      if stmt = .sleep (some (.sleeplock l)) (.inner l) then
        some (.entering (some (.sleeplock l)) (.inner l))
      else none
  | .owner l, stmt => if stmt = .acquire (.inner l) then some (.owning l) else none
  | .owning l, stmt => if stmt = .unlock l then some (.unlocked l) else none
  | .unlocked l, stmt =>
      if stmt = .acquire .ptable then some (.unlocked l)
      else if stmt = .wakeup1 (some (.sleeplock l)) then some (.closing l) else none
  | .closing l, stmt =>
      if stmt = .release .ptable then some (.closing l)
      else if stmt = .release (.inner l) then some .any else none
  | .entering chan lk, stmt => if stmt = .acquire .ptable then some (.handing chan lk) else none
  | .handing chan lk, stmt =>
      if stmt = .release lk ∧ lk ≠ .ptable then some (.handed chan lk) else none
  | .handed chan lk, stmt => if stmt = .setSleeping chan then some (.asleep chan lk) else none
  | .asleep chan lk, stmt =>
      if stmt = .sched then some (.asleep chan lk)
      else if stmt = .clearChan then some (.woken lk) else none
  | .woken lk, stmt =>
      if stmt = .release .ptable ∧ lk ≠ .ptable then some (.woken lk)
      else if stmt = .acquire lk then some (.resumed lk)
      else if stmt = .slept .ptable ∧ lk = .ptable then some .any else none
  | .resumed lk, stmt =>
      match lk with
      | .inner l => if stmt = .slept (.inner l) then some (.inner l) else none
      | lk => if stmt = .slept lk then some .any else none
  | .forks q, stmt => if stmt = .setChildRunnable q then some (.returns q) else none
  | .returns q, stmt => if stmt = .returnPid q then some .any else none

abbrev Tracked (p : Fin slots) (stage : Stage slots) (code : Code slots) : Prop :=
  Follows (track p) stage code

/-! ## The functions -/

theorem tracked_dead (code : Code slots) : Tracked p .dead code := by
  induction code with
  | nil => rfl
  | cons stmt code ih => exact (follows_cons (a := Stage.dead) rfl).mpr ih

theorem walk_wait_sleep :
    walk (track p) .waiting (Code.sleep (some (.proc p)) .ptable) = some .any := by
  simp [Code.sleep]

theorem walk_spin_sleep (chan : Option (Chan slots)) (n : Nat) :
    walk (track p) .any (Code.sleep chan (.spin n)) = some .any := by
  simp [Code.sleep]

theorem walk_lock_sleep (l : Nat) :
    walk (track p) (.dozing l) (Code.sleep (some (.sleeplock l)) (.inner l)) =
      some (.inner l) := by
  simp [Code.sleep]

theorem walk_releasesleep (l : Nat) :
    walk (track p) (.owner l) (Code.releasesleep l) = some .any := by
  simp [Code.releasesleep, Code.wakeup]

theorem walk_acquiresleep (l : Nat) :
    walk (track p) .any (Code.acquiresleep l) = some .any := by
  simp [Code.acquiresleep]

/-- A trap ends where it began, or in `exit`. -/
theorem tracked_entry (entry : Entry) (follows : Tracked p .any k) :
    Tracked p .any (entry.code ++ .user :: k) := by
  cases entry with
  | exit => exact (follows_append (b := .dead) rfl).mpr (tracked_dead _)
  | timer | yield | fork | wait | other => exact follows

theorem tracked_call (function : Call slots) (other : ∀ l, function ≠ .releasesleep l)
    (follows : Tracked p .any k) : Tracked p .any (function.code ++ .kernel :: k) := by
  cases function with
  | sleep chan n => exact (follows_append (walk_spin_sleep chan n)).mpr follows
  | acquiresleep l => exact (follows_append (walk_acquiresleep l)).mpr follows
  | releasesleep l => exact absurd rfl (other l)
  | acquire n | release n | wakeup chan => exact follows

theorem tracked_forkret : Tracked p .any Code.forkret := rfl

/-! ## What a process can rely on -/

namespace Machine

/-- The processor that executes the process holds the lock. -/
def Keeps (m : Machine slots cpus) (p : Fin slots) (k : Code slots) (lk : Lock) : Prop :=
  ∃ c, m.Executes c p k ∧ m.held lk = some c

/-- No child of the process is a zombie. -/
def Childless (m : Machine slots cpus) (p : Fin slots) : Prop :=
  ∀ q, (m.proc q).parent = some p → (m.proc q).state ≠ .ZOMBIE

/-- A process has cleared `locked`, and will wake up the others. -/
def Waking (m : Machine slots cpus) (l : Nat) : Prop :=
  ∃ q k, Tracked q (.unlocked l) k ∧ m.Keeps q k (.inner l)

/-- The sleep-lock of an inner lock is taken. -/
def Taken (m : Machine slots cpus) (lk : Lock) : Prop :=
  ∀ l, lk = .inner l → (m.sleeplock l).locked

/-- Why a process may sleep that has given up the lock. -/
def Reason (m : Machine slots cpus) (p : Fin slots) : Lock → Prop
  | .ptable => m.Childless p
  | .inner l => (m.sleeplock l).locked ∨ m.Waking l
  | .spin _ => True

/-- The channels of `wait` and `acquiresleep`. -/
def Fits (p : Fin slots) (chan : Option (Chan slots)) : Lock → Prop
  | .ptable => chan = some (.proc p)
  | .inner l => chan = some (.sleeplock l)
  | .spin _ => True

def Knows (m : Machine slots cpus) (p : Fin slots) (k : Code slots) : Stage slots → Prop
  | .inner l | .unlocked l | .closing l => m.Keeps p k (.inner l)
  | .waiting => m.Keeps p k .ptable ∧ m.Childless p
  | .dozing l => m.Keeps p k (.inner l) ∧ (m.sleeplock l).locked
  | .owner l => m.pid p ∈ m.between l
  | .owning l => m.pid p ∈ m.between l ∧ m.Keeps p k (.inner l)
  | .resumed lk => m.Keeps p k lk
  | .entering chan lk => m.Keeps p k lk ∧ Fits p chan lk ∧ m.Taken lk
  | .handing chan lk => m.Keeps p k lk ∧ m.Keeps p k .ptable ∧ Fits p chan lk ∧ m.Taken lk
  | .handed chan lk => m.Keeps p k .ptable ∧ Fits p chan lk ∧ m.Reason p lk
  | .asleep chan lk =>
      Fits p chan lk ∧
        ((m.proc p).state = .SLEEPING → (m.proc p).chan = chan ∧ m.Reason p lk)
  | .forks q | .returns q =>
      (m.proc q).parent = some p ∧ .born (m.pid p) (m.pid q) ∈ m.family
  | .dead => ∃ message rest, k = .panic message :: rest
  | .woken lk => lk = .ptable → m.Keeps p k .ptable
  | .any => True

structure At (m : Machine slots cpus) (p : Fin slots) (k : Code slots) (stage : Stage slots) :
    Prop where
  tracked : Tracked p stage k
  knows : m.Knows p k stage

/-- Every process is in some stage. -/
def Courses (m : Machine slots cpus) : Prop :=
  ∀ p k, m.Continues p k → ∃ stage, m.At p k stage

theorem At.panic (m : Machine slots cpus) (p : Fin slots) (message : String) (k : Code slots) :
    m.At p (.panic message :: k) .dead :=
  ⟨tracked_dead _, message, k, rfl⟩

theorem At.any (tracked : Tracked p .any k) : m.At p k .any := ⟨tracked, trivial⟩

/-- Another processor goes on as before. -/
theorem Executes.after {c' : Fin cpus} {a : Action slots} (here : m.Executes c' p k)
    (other : c' ≠ c) (step : exec c a m = some m') (ordered : m.Ordered phase) :
    m'.Executes c' p k := by
  rcases exec_code step ordered with ⟨_, _, code, _, code', current, _⟩
  refine ⟨(current c' other).trans here.1, ?_, here.2.2⟩
  rw [code', Function.update_of_ne other]
  exact here.2.1

/-- A lock is kept by the others. -/
theorem Keeps.after {lk : Lock} {a : Action slots} (keeps : m.Keeps p k lk)
    (other : m.current c ≠ some p) (step : exec c a m = some m') (ordered : m.Ordered phase) :
    m'.Keeps p k lk := by
  rcases keeps with ⟨c', here, held⟩
  have different : c' ≠ c := by
    rintro rfl
    exact other here.1
  refine ⟨c', here.after different step ordered, ?_⟩
  rcases exec_held step held with kept | ⟨same, _⟩
  · exact kept
  · exact absurd same different

/-- One processor holds a lock. -/
theorem Keeps.one {lk : Lock} {k' : Code slots} (keeps : m.Keeps p k lk)
    (keeps' : m.Keeps q k' lk) : p = q ∧ k = k' := by
  rcases keeps with ⟨c₁, here, held⟩
  rcases keeps' with ⟨c₂, here', held'⟩
  rw [held] at held'
  cases held'
  exact ⟨Option.some.inj (here.1.symm.trans here'.1), here.2.1.symm.trans here'.2.1⟩

end Machine

/-- The pid of a slot that stays in use. -/
theorem Effect.pid_kept (effect : Effect c m m') (used : (m.proc p).state ≠ .UNUSED)
    (used' : (m'.proc p).state ≠ .UNUSED) : m'.pid p = m.pid p := by
  rcases effect.ofPid p with same | ⟨unused, _⟩ | unused
  · exact same
  · exact absurd unused used
  · exact absurd unused used'

theorem Effect.family_subset (effect : Effect c m m') : m.family ⊆ m'.family := by
  cases effect with
  | quiet _ _ family | discard _ _ _ _ _ _ _ _ family | ready _ _ _ _ _ family
  | run _ _ _ _ family | leave _ _ _ _ _ _ _ _ _ _ family | wakeup _ _ _ _ _ family
  | alloc _ _ _ _ _ _ _ _ _ _ _ _ _ family =>
      rw [family]
      exact List.Subset.refl _
  | born _ _ _ _ _ _ _ family | forked _ _ _ _ _ _ _ family
  | exiting _ _ _ _ _ _ _ _ family | reap _ _ _ _ _ _ _ _ _ _ _ family
  | noChild _ _ _ _ _ _ _ family =>
      rw [family]
      exact List.subset_cons_self _ _
  | exit _ _ _ _ _ _ family =>
      rw [family]
      exact List.subset_append_right _ _


theorem exec_wakeup1 {a : Action slots} {chan : Option (Chan slots)}
    (step : exec c a m = some m') (code : m.code c = .wakeup1 chan :: k) :
    m'.proc = m.proc.wakeup1 chan := by
  unfold exec at step
  rw [code] at step
  rcases Option.bind_eq_some_iff.mp step with ⟨me, _, step⟩
  cases step
  rfl

/-- A process executes no statement of `scheduler`. -/
theorem tracked_head {stage : Stage slots} (lives : stage ≠ .dead)
    (tracked : Tracked p stage k) : ∀ stmt ∈ k.head?, stmt.ofScheduler = false := by
  intro stmt mem
  cases k with
  | nil => cases mem
  | cons stmt' rest =>
      cases mem
      rcases tracked.head with ⟨_, may, _⟩
      by_contra of
      have switches : (∃ q, stmt = .swtch q) ∨ stmt = .clearProc := by
        cases stmt <;> simp_all [Stmt.ofScheduler]
      cases stage with
      | dead => exact lives rfl
      | resumed lk => rcases switches with ⟨q, rfl⟩ | rfl <;> cases lk <;> simp at may
      | _ => rcases switches with ⟨q, rfl⟩ | rfl <;> simp at may

namespace Machine

/-- `acquire` of `ptable.lock` does not fail. -/
theorem Ordered.acquires (ordered : m.Ordered phase) {a : Action slots}
    (step : exec c a m = some m') (code : m.code c = .acquire .ptable :: rest) :
    m'.code = Function.update m.code c rest ∧ m'.current = m.current := by
  rcases ordered.next code (by simp) with ⟨alive, ph, may, _⟩
  have free : m.held .ptable ≠ some c := by
    intro held
    have holds := (ordered.lock c).mp held
    rcases permitted_acquire may alive with ⟨_, other, _⟩ | ⟨_, none, _⟩
    · exact other rfl
    · rw [none] at holds
      cases holds
  unfold exec at step
  rw [code] at step
  simp only [Stmt.runAcquire, if_neg free] at step
  split at step <;> cases step
  exact ⟨rfl, rfl⟩

/-- A process that has cleared `locked` wakes up the others. -/
theorem Waking.step {l : Nat} {a : Action slots} (waking : m.Waking l)
    (ordered : m.Ordered phase) (step : exec c a m = some m') :
    m'.Waking l ∨ ∃ k, m.code c = .wakeup1 (some (.sleeplock l)) :: k := by
  rcases waking with ⟨q, k, tracked, c', here, held⟩
  by_cases same : c' = c
  · subst same
    cases k with
    | nil =>
        unfold exec at step
        rw [here.2.1] at step
        cases step
    | cons stmt rest =>
        rcases tracked.head with ⟨_, may, follows⟩
        simp only [track] at may
        split at may
        · next acquires =>
            cases may
            subst acquires
            rcases ordered.acquires step here.2.1 with ⟨code, current⟩
            refine Or.inl ⟨q, rest, follows, c', ⟨?_, ?_, tracked_head (by simp) follows⟩, ?_⟩
            · rw [current]
              exact here.1
            · rw [code, Function.update_self]
            · rcases exec_held step held with kept | ⟨_, _, code⟩
              · exact kept
              · rw [here.2.1] at code
                cases code
        · split at may
          · next wakes =>
              subst wakes
              exact Or.inr ⟨rest, here.2.1⟩
          · cases may
  · refine Or.inl ⟨q, k, tracked, Keeps.after ⟨c', here, held⟩ ?_ step ordered⟩
    intro there
    exact same (ordered.one c' c q here.1 there)

/-- Children become zombies in `exit` only. -/
theorem Childless.step (childless : m.Childless p) (effect : Effect c m m')
    (ordered : m.Ordered phase) :
    m'.Childless p ∨ ∃ me k, m.current c = some me ∧ m.code c = .exit :: k := by
  by_cases exits : ∃ me k, m.current c = some me ∧ m.code c = .exit :: k
  · exact Or.inr exits
  · left
    intro q parent zombie
    have before : (m.proc q).state = .ZOMBIE := by
      cases effect.ofState ordered q with
      | same state => exact state.symm.trans zombie
      | alive _ after => exact absurd zombie after.not_zombie
      | died _ _ here k code _ => exact absurd ⟨q, k, here, code⟩ exits
      | taken _ after | dropped _ after | ready _ after | reaped _ after =>
          rw [after] at zombie
          cases zombie
    cases effect.ofParent q with
    | same same => exact childless q (same.symm.trans parent) before
    | born me k here code _ =>
        rw [(ordered.embryo_of_stmt code (Or.inr (Or.inl rfl))).2] at before
        cases before
    | adopted me k here code _ _ => exact exits ⟨me, k, here, code⟩
    | reaped me k here code found gone =>
        rw [gone] at parent
        cases parent

/-- A process that sleeps in `wait` is woken up with its first zombie. -/
theorem Childless.asleep {a : Action slots} (childless : m.Childless p) (kin : m.Kin)
    (ordered : m.Ordered phase) (step : exec c a m = some m')
    (state : (m.proc p).state = .SLEEPING) (chan : (m.proc p).chan = some (.proc p))
    (state' : (m'.proc p).state = .SLEEPING) : m'.Childless p := by
  have effect := exec_effect step
  rcases childless.step effect ordered with kept | ⟨me, k, here, code⟩
  · exact kept
  · have passed : m'.proc = m.proc.exit me m.initproc := by
      unfold exec at step
      rw [code] at step
      rcases Option.bind_eq_some_iff.mp step with ⟨me', here', step⟩
      rw [here] at here'
      cases here'
      cases step
      rfl
    have running := ordered.running_of_locked here (ordered.locked_of_stmt code (Or.inl rfl))
    have other : p ≠ me := by
      rintro rfl
      rw [state] at running
      cases running
    rw [passed, Table.exit_apply] at state'
    change (if _ then _ else if _ then _ else _) = _ at state'
    rw [if_neg other] at state'
    have quiet : ¬ m.proc.wakes me m.initproc p := by
      intro wakes
      rw [if_pos wakes] at state'
      cases state'
    simp only [Table.wakes, decide_eq_true_eq, not_and, not_or] at quiet
    rcases quiet state with ⟨notParent, notAdopter⟩
    rw [chan] at notParent notAdopter
    intro q parent zombie
    rw [passed, Table.exit_apply] at parent zombie
    change (if _ then _ else _) = _ at parent
    change (if _ then _ else if _ then _ else _) = _ at zombie
    by_cases mine : q = me
    · subst mine
      rw [if_neg (kin.self q)] at parent
      rw [parent] at notParent
      exact notParent rfl
    · rw [if_neg mine] at zombie
      have before : (m.proc q).state = .ZOMBIE := by
        split at zombie
        · cases zombie
        · exact zombie
      split at parent
      · next child =>
          rw [parent] at notAdopter
          apply notAdopter rfl
          exact List.any_eq_true.mpr
            ⟨q, List.mem_finRange q, Table.zombieChild_iff.mpr ⟨child, before⟩⟩
      · exact childless q parent before

/-- `releasesleep` clears `locked` with the inner lock. -/
theorem Courses.unlock {l : Nat} (courses : m.Courses) (here : m.current c = some p)
    (code : m.code c = .unlock l :: rest) :
    m.pid p ∈ m.between l ∧ m.Keeps p (.unlock l :: rest) (.inner l) ∧
      Tracked p (.unlocked l) rest := by
  rcases courses p _ (Or.inr ⟨c, executes_cons here code rfl⟩) with ⟨stage, tracked, knows⟩
  rcases tracked.head with ⟨stage', may, follows⟩
  have owning : stage = .owning l ∧ stage' = .unlocked l := by
    cases stage with
    | owning l' =>
        simp only [track, Stmt.unlock.injEq] at may
        split at may <;> cases may
        next same => exact ⟨by rw [same], by rw [same]⟩
    | dead =>
        rcases knows with ⟨_, _, never⟩
        cases never
    | resumed lk => cases lk <;> simp at may
    | _ => simp at may
  rcases owning with ⟨rfl, rfl⟩
  exact ⟨knows.1, knows.2, follows⟩

/-- `releasesleep` clears `locked` before it wakes up others. -/
theorem Waking.of_unlock {a : Action slots} {l : Nat} (courses : m.Courses)
    (ordered : m.Ordered phase) (step : exec c a m = some m') (here : m.current c = some p)
    (code : m.code c = .unlock l :: rest) : m'.Waking l := by
  rcases courses.unlock here code with ⟨_, ⟨c', there, held⟩, follows⟩
  have after : m'.current = m.current ∧ m'.code = Function.update m.code c rest := by
    unfold exec at step
    rw [code] at step
    simp only [here, Option.bind_some, Stmt.runProc, Option.some.injEq] at step
    subst step
    exact ⟨rfl, rfl⟩
  have same := ordered.one c' c p there.1 here
  subst same
  refine ⟨p, rest, follows, c', ⟨?_, ?_, tracked_head (by simp) follows⟩, ?_⟩
  · rw [after.1]
    exact here
  · rw [after.2, Function.update_self]
  · rcases exec_held step held with kept | ⟨_, _, code'⟩
    · exact kept
    · rw [code] at code'
      cases code'

/-- The reason of a process that sleeps lasts until it is woken up. -/
theorem Reason.asleep {a : Action slots} {chan : Option (Chan slots)} {lk : Lock}
    (reason : m.Reason p lk) (kin : m.Kin) (courses : m.Courses) (ordered : m.Ordered phase)
    (step : exec c a m = some m') (fits : Fits p chan lk)
    (state : (m.proc p).state = .SLEEPING) (same : (m.proc p).chan = chan)
    (state' : (m'.proc p).state = .SLEEPING) : m'.Reason p lk := by
  cases lk with
  | ptable => exact Childless.asleep reason kin ordered step state (same.trans fits) state'
  | spin n => trivial
  | inner l =>
      have wakes (waking : m.Waking l) : m'.Reason p (.inner l) := by
        rcases waking.step ordered step with kept | ⟨k, code⟩
        · exact Or.inr kept
        · rw [exec_wakeup1 step code, Table.wakeup1_apply] at state'
          change (if _ then _ else _) = _ at state'
          rw [if_pos ⟨state, same.trans fits⟩] at state'
          cases state'
      rcases reason with locked | waking
      · rcases exec_locked step locked with kept | ⟨me, rest, here, code⟩
        · exact Or.inl kept
        · exact Or.inr (Waking.of_unlock courses ordered step here code)
      · exact wakes waking

/-- A process that has a continuation is in use. -/
theorem Kin.continues_used (kin : m.Kin) (ordered : m.Ordered phase)
    (there : m.Continues p k) : (m.proc p).state ≠ .UNUSED := by
  rcases there with saved | ⟨c, here, _⟩
  · intro unused
    rw [kin.saved p unused] at saved
    cases saved
  · exact ordered.used here

/-! ## Steps of other processes -/

/-- The processor that executes a statement holds no lock of the process. -/
theorem Keeps.elsewhere (apart : ∀ stmt rest, ¬ m.Executes c p (stmt :: rest)) {lk : Lock}
    {stmt : Stmt slots} (keeps : m.Keeps p k lk)
    (code : m.code c = stmt :: rest) : m.held lk ≠ some c := by
  rcases keeps with ⟨c', here, held⟩
  intro mine
  rw [held] at mine
  cases mine
  have same := here.2.1.symm.trans code
  subst same
  exact apart stmt rest here

/-- A process that holds `ptable.lock` is not interfered with. -/
theorem Keeps.alone (ordered : m.Ordered phase)
    (apart : ∀ stmt rest, ¬ m.Executes c p (stmt :: rest)) {stmt : Stmt slots}
    (keeps : m.Keeps p k .ptable)
    (code : m.code c = stmt :: rest) (locked : phase c = .locked) : False := by
  apply keeps.elsewhere apart code
  apply (ordered.lock c).mpr
  rw [locked]
  rfl

theorem Taken.spared {a : Action slots} (courses : m.Courses) (step : exec c a m = some m')
    (apart : ∀ stmt rest, ¬ m.Executes c p (stmt :: rest)) {lk : Lock} (taken : m.Taken lk)
    (keeps : m.Keeps p k lk) :
    m'.Taken lk := by
  rintro l rfl
  rcases exec_locked step (taken l rfl) with kept | ⟨me, rest, here, code⟩
  · exact kept
  · rcases keeps.one (courses.unlock here code).2.1 with ⟨rfl, rfl⟩
    exact absurd (executes_cons here code rfl) (apart _ _)

theorem Childless.spared {a : Action slots} (ordered : m.Ordered phase)
    (step : exec c a m = some m') (apart : ∀ stmt rest, ¬ m.Executes c p (stmt :: rest))
    (childless : m.Childless p) (keeps : m.Keeps p k .ptable) :
    m'.Childless p := by
  rcases childless.step (exec_effect step) ordered with kept | ⟨me, k', here, code⟩
  · exact kept
  · exact (keeps.alone ordered apart code (ordered.locked_of_stmt code (Or.inl rfl))).elim

theorem Reason.spared {a : Action slots} (courses : m.Courses) (ordered : m.Ordered phase)
    (step : exec c a m = some m') (apart : ∀ stmt rest, ¬ m.Executes c p (stmt :: rest))
    {lk : Lock} (reason : m.Reason p lk) (keeps : m.Keeps p k .ptable) :
    m'.Reason p lk := by
  cases lk with
  | ptable => exact Childless.spared ordered step apart reason keeps
  | spin n => trivial
  | inner l =>
      rcases reason with locked | waking
      · rcases exec_locked step locked with kept | ⟨me, rest, here, code⟩
        · exact Or.inl kept
        · exact Or.inr (Waking.of_unlock courses ordered step here code)
      · rcases waking.step ordered step with kept | ⟨k', code⟩
        · exact Or.inr kept
        · have locked := ordered.locked_of_stmt code
            (Or.inr (Or.inr (Or.inr (Or.inl ⟨_, rfl⟩))))
          exact (keeps.alone ordered apart code locked).elim

/-- The children that `fork` has made stay children. -/
theorem child_spared {a : Action slots} (kin : m.Kin) (step : exec c a m = some m')
    (apart : ∀ stmt rest, ¬ m.Executes c p (stmt :: rest)) (kin' : m'.Kin)
    (pid : m'.pid p = m.pid p)
    (knows : (m.proc q).parent = some p ∧ .born (m.pid p) (m.pid q) ∈ m.family) :
    (m'.proc q).parent = some p ∧ .born (m'.pid p) (m'.pid q) ∈ m'.family := by
  have effect := exec_effect step
  have parent : (m'.proc q).parent = some p := by
    cases effect.ofParent q with
    | same same => exact same.trans knows.1
    | born me k here code _ =>
        have none := kin.orphan c q (code ▸ .setParent k)
        rw [none] at knows
        cases knows.1
    | adopted me k here code before _ =>
        have mine := Option.some.inj (before.symm.trans knows.1)
        subst mine
        exact absurd (executes_cons here code rfl) (apart _ _)
    | reaped me k here code found _ =>
        have mine := Option.some.inj ((Table.zombie_state found).1.symm.trans knows.1)
        subst mine
        exact absurd (executes_cons here code rfl) (apart _ _)
  refine ⟨parent, ?_⟩
  rw [pid, effect.pid_kept (kin.parent q p knows.1).1 (kin'.parent q p parent).1]
  exact effect.family_subset knows.2

/-- Others wake up a process, but do not put it to sleep. -/
theorem sleeping_spared {a : Action slots} (step : exec c a m = some m')
    (apart : ∀ stmt rest, ¬ m.Executes c p (stmt :: rest)) (state : (m'.proc p).state = .SLEEPING) :
    (m.proc p).state = .SLEEPING ∧ (m'.proc p).chan = (m.proc p).chan := by
  rcases (exec_effect step).asleep state with before | ⟨_, k, here, code, _⟩
  · rcases exec_chan (q := p) step with same | ⟨here, stmt, rest, code, writes⟩
    · exact ⟨before, same⟩
    · refine absurd (executes_cons here code ?_) (apart _ _)
      rcases writes with rfl | ⟨_, rfl⟩ <;> rfl
  · exact absurd (executes_cons here code rfl) (apart _ _)

/-- What a process knows does not depend on others. -/
theorem Knows.spared {a : Action slots} (kin : m.Kin) (courses : m.Courses)
    (ordered : m.Ordered phase) (step : exec c a m = some m')
    (apart : ∀ stmt rest, ¬ m.Executes c p (stmt :: rest)) {stage : Stage slots}
    (numbered : m.Numbered) (kin' : m'.Kin)
    (knows : m.Knows p k stage)
    (used : (m.proc p).state ≠ .UNUSED) (used' : (m'.proc p).state ≠ .UNUSED)
    (keeps : ∀ lk, m.Keeps p k lk → m'.Keeps p k lk) : m'.Knows p k stage := by
  have pid := (exec_effect step).pid_kept used used'
  have between (l : Nat) (mem : m.pid p ∈ m.between l) : m'.pid p ∈ m'.between l := by
    rw [pid]
    rcases exec_between step mem with kept | ⟨me, rest, here, same, code⟩
    · exact kept
    · have mine := numbered.distinct p me used (ordered.used here) same
      subst mine
      exact absurd (executes_cons here code rfl) (apart _ _)
  cases stage with
  | inner l | unlocked l | closing l | resumed l => exact keeps _ knows
  | waiting => exact ⟨keeps _ knows.1, Childless.spared ordered step apart knows.2 knows.1⟩
  | dozing l =>
      have taken : m.Taken (.inner l) := by
        intro l' same
        cases same
        exact knows.2
      exact ⟨keeps _ knows.1, taken.spared courses step apart knows.1 l rfl⟩
  | owner l => exact between l knows
  | owning l => exact ⟨between l knows.1, keeps _ knows.2⟩
  | entering chan lk =>
      rcases knows with ⟨kept, fits, taken⟩
      exact ⟨keeps _ kept, fits, taken.spared courses step apart kept⟩
  | handing chan lk =>
      rcases knows with ⟨kept, both, fits, taken⟩
      exact ⟨keeps _ kept, keeps _ both, fits, taken.spared courses step apart kept⟩
  | handed chan lk =>
      rcases knows with ⟨kept, fits, reason⟩
      exact ⟨keeps _ kept, fits, reason.spared courses ordered step apart kept⟩
  | asleep chan lk =>
      refine ⟨knows.1, ?_⟩
      intro state
      rcases sleeping_spared step apart state with ⟨before, same⟩
      rcases knows.2 before with ⟨chan, reason⟩
      exact ⟨same.trans chan,
        reason.asleep kin courses ordered step knows.1 before chan state⟩
  | forks q | returns q => exact child_spared kin step apart kin' pid knows
  | dead => exact knows
  | woken lk =>
      intro same
      exact keeps _ (knows same)
  | any => trivial

/-! ## Steps of the process itself -/

/-- The lock stays with a processor that does not release it. -/
theorem Keeps.here {a : Action slots} {stmt : Stmt slots} {lk : Lock} (ordered : m.Ordered phase)
    (step : exec c a m = some m') (here : m.Executes c p (stmt :: rest))
    (there : m'.Executes c p k) (keeps : m.Keeps p (stmt :: rest) lk)
    (other : stmt ≠ .release lk) : m'.Keeps p k lk := by
  rcases keeps with ⟨c', executes, held⟩
  have same := ordered.one c' c p executes.1 here.1
  subst same
  refine ⟨c', there, ?_⟩
  rcases exec_held step held with kept | ⟨_, rest', code⟩
  · exact kept
  · rw [here.2.1] at code
    exact absurd (List.cons.inj code).1 other

/-- A sleep-lock stays taken while the process does something else. -/
theorem locked_here {a : Action slots} {stmt : Stmt slots} {l : Nat}
    (step : exec c a m = some m') (here : m.Executes c p (stmt :: rest))
    (other : ∀ l, stmt ≠ .unlock l) (locked : (m.sleeplock l).locked) :
    (m'.sleeplock l).locked := by
  rcases exec_locked step locked with kept | ⟨_, _, _, code⟩
  · exact kept
  · rw [here.2.1] at code
    exact absurd (List.cons.inj code).1 (other l)

theorem Childless.here {a : Action slots} {stmt : Stmt slots} (childless : m.Childless q)
    (ordered : m.Ordered phase) (step : exec c a m = some m')
    (here : m.Executes c p (stmt :: rest)) (other : stmt ≠ .exit) : m'.Childless q := by
  rcases childless.step (exec_effect step) ordered with kept | ⟨_, _, _, code⟩
  · exact kept
  · rw [here.2.1] at code
    exact absurd (List.cons.inj code).1 other

/-- `sleep` goes on only if it holds the lock. -/
theorem sleep_holds {a : Action slots} {chan : Option (Chan slots)} {lk : Lock}
    (step : exec c a m = some m') (here : m.Executes c p (.sleep chan lk :: k))
    (there : m'.Executes c p k) : m'.held lk = some c := by
  unfold exec at step
  rw [here.2.1] at step
  simp only [here.1, Option.bind_some, Stmt.runProc] at step
  split at step <;> cases step
  · next held => exact held
  · have never := (Function.update_self (β := fun _ => Code slots) c _ m.code).symm.trans there.2.1
    have length := congrArg List.length never
    simp only [List.length_cons] at length
    omega

/-- What a process that switches to `scheduler` knows. -/
theorem At.sched {stage : Stage slots} {a : Action slots} (kin : m.Kin) (courses : m.Courses)
    (ordered : m.Ordered phase) (step : exec c a m = some m')
    (here : m.Executes c p (.sched :: k)) (at_ : m.At p (.sched :: k) stage) :
    ∃ stage', m'.At p k stage' := by
  rcases at_.tracked.head with ⟨stage', may, follows⟩
  cases stage with
  | any =>
      cases may
      exact ⟨.any, .any follows⟩
  | dead =>
      rcases at_.knows with ⟨_, _, never⟩
      cases never
  | asleep chan lk =>
      simp only [track, if_true, Option.some.injEq] at may
      subst may
      refine ⟨.asleep chan lk, follows, at_.knows.1, ?_⟩
      intro state
      rcases (exec_effect step).asleep state with before | ⟨_, k', _, code, _⟩
      · rcases at_.knows.2 before with ⟨same, reason⟩
        rcases exec_chan (q := p) step with kept | ⟨_, stmt, rest, code, writes⟩
        · exact ⟨kept.trans same,
            reason.asleep kin courses ordered step at_.knows.1 before same state⟩
        · rw [here.2.1] at code
          rcases writes with rfl | ⟨_, rfl⟩ <;> cases code
      · rw [here.2.1] at code
        cases code
  | resumed lk => cases lk <;> simp at may
  | _ => simp at may

/-- `p->chan = chan; p->state = SLEEPING;` -/
theorem At.setSleeping {a : Action slots} {chan : Option (Chan slots)} {lk : Lock}
    (ordered : m.Ordered phase) (step : exec c a m = some m')
    (here : m.Executes c p (.setSleeping chan :: k)) (fits : Fits p chan lk)
    (reason : m.Reason p lk) : m'.Knows p k (.asleep chan lk) := by
  refine ⟨fits, fun _ => ⟨?_, ?_⟩⟩
  · unfold exec at step
    rw [here.2.1] at step
    simp only [here.1, Option.bind_some, Stmt.runProc, Option.some.injEq] at step
    subst step
    exact congrArg Proc.chan (Function.update_self p _ m.proc)
  · cases lk with
    | ptable => exact Childless.here reason ordered step here (by simp)
    | spin n => trivial
    | inner l =>
        rcases reason with locked | waking
        · exact Or.inl (locked_here step here (by simp) locked)
        · rcases waking.step ordered step with kept | ⟨_, code⟩
          · exact Or.inr kept
          · rw [here.2.1] at code
            cases code

theorem pid_set {proc : Proc slots} (same : proc.pid = m.pid q) (r : Fin slots) :
    (m.set q proc).pid r = m.pid r :=
  Effect.write_pid rfl same r

/-- `fork` makes the process the parent of the slot. -/
theorem At.setParent {a : Action slots} (step : exec c a m = some m')
    (here : m.Executes c p (.setParent q :: k)) : m'.Knows p k (.forks q) := by
  unfold exec at step
  rw [here.2.1] at step
  simp only [here.1, Option.bind_some, Stmt.runProc, Option.some.injEq] at step
  subst step
  have pid := pid_set (m := m.record [.born (m.pid p) (m.pid q)])
    (rfl : ({ m.proc q with parent := some p } : Proc slots).pid = m.pid q)
  refine ⟨congrArg Proc.parent (Function.update_self q _ m.proc), ?_⟩
  change Event.born ((Machine.set _ q _).pid p) ((Machine.set _ q _).pid q) ∈ _
  rw [pid, pid, family_goto, family_set, family_record]
  exact List.mem_append_left _ List.mem_cons_self

theorem At.setChildRunnable {a : Action slots} (step : exec c a m = some m')
    (here : m.Executes c p (.setChildRunnable q :: k))
    (knows : m.Knows p (.setChildRunnable q :: k) (.forks q)) : m'.Knows p k (.returns q) := by
  unfold exec at step
  rw [here.2.1] at step
  simp only [here.1, Option.bind_some, Stmt.runProc, Option.some.injEq] at step
  subst step
  have pid := pid_set (m := m)
    (rfl : ({ m.proc q with state := .RUNNABLE } : Proc slots).pid = m.pid q)
  refine ⟨?_, ?_⟩
  · change (Function.update m.proc q _ q).parent = _
    rw [Function.update_self]
    exact knows.1
  · change Event.born ((Machine.set _ q _).pid p) ((Machine.set _ q _).pid q) ∈ _
    rw [pid, pid, family_goto, family_set]
    exact knows.2

/-- A process that has slept holds `ptable.lock`. -/
theorem Ordered.locked_of_clearChan (ordered : m.Ordered phase)
    (code : m.code c = .clearChan :: k) : phase c = .locked := by
  rcases ordered.next code (by simp) with ⟨alive, ph, may, _⟩
  cases at_ : phase c <;> simp_all [permitted]

/-! ### The next statement, stage by stage -/

section Next

variable
    {stage' : Stage slots}
    {a : Action slots}
    {stmt : Stmt slots}
    {chan : Option (Chan slots)}
    {lk : Lock}
    {l : Nat}

theorem Keeps.acquired (step : exec c a m = some m')
    (here : m.Executes c p (.acquire lk :: k)) (there : m'.Executes c p k) :
    m'.Keeps p k lk :=
  ⟨c, there, exec_acquired step here.2.1 there.2.1⟩

theorem Taken.here (taken : m.Taken lk) (step : exec c a m = some m')
    (here : m.Executes c p (stmt :: rest)) (other : ∀ l, stmt ≠ .unlock l) :
    m'.Taken lk := by
  intro l same
  exact locked_here step here other (taken l same)

/-- No step executes `panic`. -/
theorem exec_panic {message : String} (here : m.Executes c p (.panic message :: rest)) :
    exec c a m ≠ some m' := by
  intro step
  unfold exec at step
  rw [here.2.1] at step
  cases step

/-- Outside the functions on locks and children, a process may enter each of them. -/
theorem Knows.any (step : exec c a m = some m') (here : m.Executes c p (stmt :: k))
    (there : m'.Executes c p k) (may : track p .any stmt = some stage') :
    m'.Knows p k stage' := by
  cases stmt with
  | acquire lk =>
      cases lk <;> simp only [track, Option.some.injEq] at may <;> subst may
      · trivial
      · exact Keeps.acquired step here there
      · trivial
  | release lk => cases lk <;> simp at may <;> subst may <;> trivial
  | sleep chan lk =>
      cases lk <;> simp at may
      subst may
      exact ⟨⟨c, there, sleep_holds step here there⟩, trivial,
        fun _ never => by cases never⟩
  | setParent q =>
      cases may
      exact At.setParent step here
  | panic message => exact absurd step (exec_panic here)
  | _ => first | (cases may; trivial) | cases may

/-- `acquiresleep` calls `sleep` while the sleep-lock is taken. -/
theorem Knows.dozing (ordered : m.Ordered phase) (step : exec c a m = some m')
    (here : m.Executes c p (stmt :: k)) (there : m'.Executes c p k)
    (knows : m.Knows p (stmt :: k) (.dozing l))
    (may : track p (.dozing l) stmt = some stage') : m'.Knows p k stage' := by
  simp only [track] at may
  split at may <;> cases may
  next same =>
    subst same
    refine ⟨knows.1.here ordered step here there (by simp), rfl, ?_⟩
    intro l' same
    cases same
    exact locked_here step here (by simp) knows.2

/-- `releasesleep` of the process that has the sleep-lock -/
theorem Knows.owner (step : exec c a m = some m') (here : m.Executes c p (stmt :: k))
    (there : m'.Executes c p k) (knows : m.Knows p (stmt :: k) (.owner l))
    (may : track p (.owner l) stmt = some stage') (pid : m'.pid p = m.pid p) :
    m'.Knows p k stage' := by
  simp only [track] at may
  split at may <;> cases may
  next same =>
    subst same
    refine ⟨?_, Keeps.acquired step here there⟩
    rcases exec_between step knows with kept | ⟨_, _, _, _, code⟩
    · rwa [pid]
    · rw [here.2.1] at code
      cases code

/-- The inner lock is held over `unlock` and `wakeup`. -/
theorem Knows.unlocked (ordered : m.Ordered phase) (step : exec c a m = some m')
    (here : m.Executes c p (stmt :: k)) (there : m'.Executes c p k)
    (knows : m.Knows p (stmt :: k) (.unlocked l))
    (may : track p (.unlocked l) stmt = some stage') : m'.Knows p k stage' := by
  simp only [track] at may
  split at may
  · next same =>
      cases may
      subst same
      exact knows.here ordered step here there (by simp)
  · split at may <;> cases may
    next same =>
      subst same
      exact knows.here ordered step here there (by simp)

theorem Knows.closing (ordered : m.Ordered phase) (step : exec c a m = some m')
    (here : m.Executes c p (stmt :: k)) (there : m'.Executes c p k)
    (knows : m.Knows p (stmt :: k) (.closing l))
    (may : track p (.closing l) stmt = some stage') : m'.Knows p k stage' := by
  simp only [track] at may
  split at may
  · next same =>
      cases may
      subst same
      exact knows.here ordered step here there (by simp)
  · split at may <;> cases may
    trivial

/-- `sleep` takes `ptable.lock` before it gives up its own. -/
theorem Knows.entering (ordered : m.Ordered phase) (step : exec c a m = some m')
    (here : m.Executes c p (stmt :: k)) (there : m'.Executes c p k)
    (knows : m.Knows p (stmt :: k) (.entering chan lk))
    (may : track p (.entering chan lk) stmt = some stage') : m'.Knows p k stage' := by
  simp only [track] at may
  split at may <;> cases may
  next same =>
    subst same
    rcases knows with ⟨kept, fits, shut⟩
    exact ⟨kept.here ordered step here there (by simp), Keeps.acquired step here there,
      fits, shut.here step here (by simp)⟩

/-- Without its own lock the process still has the reason for which it sleeps. -/
theorem Knows.handing (ordered : m.Ordered phase) (step : exec c a m = some m')
    (here : m.Executes c p (stmt :: k)) (there : m'.Executes c p k)
    (knows : m.Knows p (stmt :: k) (.handing chan lk))
    (may : track p (.handing chan lk) stmt = some stage') : m'.Knows p k stage' := by
  simp only [track] at may
  split at may <;> cases may
  next same =>
    rcases same with ⟨same, other⟩
    rcases knows with ⟨_, kept, fits, shut⟩
    refine ⟨kept.here ordered step here there ?_, fits, ?_⟩
    · rw [same]
      intro never
      exact other (Stmt.release.inj never)
    · have shut := shut.here step here (by simp [same])
      cases lk with
      | ptable => exact absurd rfl other
      | inner l => exact Or.inl (shut l rfl)
      | spin n => trivial

/-- The process runs again with `ptable.lock`. -/
theorem Knows.asleep (ordered : m.Ordered phase) (step : exec c a m = some m')
    (stays : stmt ≠ .sched) (here : m.Executes c p (stmt :: k)) (there : m'.Executes c p k)
    (may : track p (.asleep chan lk) stmt = some stage') : m'.Knows p k stage' := by
  simp only [track] at may
  split at may
  · next same => exact absurd same stays
  · split at may <;> cases may
    next same =>
      subst same
      intro _
      have locked := ordered.locked_of_clearChan here.2.1
      have held := (ordered.lock c).mpr (by rw [locked]; rfl)
      exact Keeps.here ordered step here there ⟨c, here, held⟩ (by simp)

/-- `sleep` takes its own lock again, if it has given it up. -/
theorem Knows.woken (step : exec c a m = some m') (here : m.Executes c p (stmt :: k))
    (there : m'.Executes c p k) (may : track p (.woken lk) stmt = some stage') :
    m'.Knows p k stage' := by
  simp only [track] at may
  split at may
  · next same =>
      cases may
      intro never
      exact absurd never same.2
  · split at may
    · next same =>
        cases may
        subst same
        exact Keeps.acquired step here there
    · split at may <;> cases may
      trivial

theorem Knows.resumed (ordered : m.Ordered phase) (step : exec c a m = some m')
    (here : m.Executes c p (stmt :: k)) (there : m'.Executes c p k)
    (knows : m.Knows p (stmt :: k) (.resumed lk))
    (may : track p (.resumed lk) stmt = some stage') : m'.Knows p k stage' := by
  cases lk with
  | inner l =>
      simp only [track] at may
      split at may <;> cases may
      next same =>
        subst same
        exact knows.here ordered step here there (by simp)
  | ptable | spin n =>
      simp only [track] at may
      split at may <;> cases may
      trivial

/-- A step to the next statement. -/
theorem At.tail {stage : Stage slots} (ordered : m.Ordered phase)
    (step : exec c a m = some m') (stays : stmt ≠ .sched)
    (here : m.Executes c p (stmt :: k)) (there : m'.Executes c p k)
    (at_ : m.At p (stmt :: k) stage) (may : track p stage stmt = some stage')
    (follows : Tracked p stage' k) (pid : m'.pid p = m.pid p) : m'.At p k stage' := by
  refine ⟨follows, ?_⟩
  have knows := at_.knows
  cases stage with
  | any => exact Knows.any step here there may
  | dozing l => exact Knows.dozing ordered step here there knows may
  | owner l => exact Knows.owner step here there knows may pid
  | unlocked l => exact Knows.unlocked ordered step here there knows may
  | closing l => exact Knows.closing ordered step here there knows may
  | entering chan lk => exact Knows.entering ordered step here there knows may
  | handing chan lk => exact Knows.handing ordered step here there knows may
  | asleep chan lk => exact Knows.asleep ordered step stays here there may
  | woken lk => exact Knows.woken step here there may
  | resumed lk => exact Knows.resumed ordered step here there knows may
  | waiting =>
      simp only [track] at may
      split at may <;> cases may
      next same =>
        subst same
        exact ⟨⟨c, there, sleep_holds step here there⟩, rfl,
          knows.2.here ordered step here (by simp)⟩
  | owning l =>
      simp only [track] at may
      split at may <;> cases may
      next same =>
        subst same
        exact knows.2.here ordered step here there (by simp)
  | handed chan lk =>
      simp only [track] at may
      split at may <;> cases may
      next same =>
        subst same
        exact At.setSleeping ordered step here knows.2.1 knows.2.2
  | forks q =>
      simp only [track] at may
      split at may <;> cases may
      next same =>
        subst same
        exact At.setChildRunnable step here knows
  | inner l | returns q =>
      simp only [track] at may
      split at may <;> cases may
      trivial
  | dead =>
      rcases knows with ⟨message, rest, panics⟩
      rw [panics] at here
      exact absurd step (exec_panic here)

end Next

end Machine

/-! ## Functions that are called -/

theorem track_free {stage stage' : Stage slots} {stmt : Stmt slots}
    (may : track p stage stmt = some stage')
    (free : stmt = .user ∨ stmt = .kernel ∨ stmt = .wait ∨ stmt = .proc_alloc ∨
      (∃ q, stmt = .copyuvm q) ∨ stmt = .forkret) :
    stage = .dead ∨ stage = .any ∧ stage' = .any := by
  rcases free with rfl | rfl | rfl | rfl | ⟨q, rfl⟩ | rfl <;> cases stage <;>
    simp only [track, reduceCtorEq, if_false, false_and, Option.some.injEq] at may <;>
    first
    | exact Or.inl rfl
    | exact Or.inr ⟨rfl, may.symm⟩
    | (split at may <;> cases may)

theorem track_acquiresleep {stage stage' : Stage slots} {l : Nat}
    (may : track p stage (.acquiresleep l) = some stage') :
    stage = .dead ∨ stage = .inner l ∧ stage' = .any := by
  cases stage with
  | inner l' =>
      simp only [track] at may
      split at may <;> cases may
      next same => exact Or.inr ⟨by cases same; rfl, rfl⟩
  | dead => exact Or.inl rfl
  | resumed lk => cases lk <;> simp at may
  | _ => simp at may

namespace Machine

/-- `wait` that sleeps has found no zombie, and holds the lock. -/
theorem At.sleepInWait {a : Action slots} (ordered : m.Ordered phase)
    (step : exec c a m = some m') (here : m.Executes c p (.wait :: rest))
    (there : m'.Executes c p k) (childless : m.proc.zombie p = none) :
    m'.Knows p k .waiting := by
  have locked := ordered.locked_of_stmt here.2.1 (Or.inr (Or.inl rfl))
  have held : m.held .ptable = some c := (ordered.lock c).mpr (by rw [locked]; rfl)
  refine ⟨⟨c, there, ?_⟩, ?_⟩
  · rcases exec_held step held with kept | ⟨_, _, code⟩
    · exact kept
    · rw [here.2.1] at code
      cases code
  · have before : m.Childless p := Table.zombie_none childless
    exact before.here ordered step here (by simp)

/-- A step of the process itself. -/
theorem At.next {stage : Stage slots} {a : Action slots} {stmt : Stmt slots}
    (ordered : m.Ordered phase) (step : exec c a m = some m') (stays : stmt ≠ .sched)
    (here : m.Executes c p (stmt :: rest)) (there : m'.Executes c p k)
    (at_ : m.At p (stmt :: rest) stage) (next : Next m p stmt rest k)
    (pid : m'.pid p = m.pid p) : ∃ stage', m'.At p k stage' := by
  rcases at_.tracked.head with ⟨stage', may, follows⟩
  -- a processor does not execute a panic
  have lives : stage ≠ .dead := by
    rintro rfl
    rcases at_.knows with ⟨message, rest', panics⟩
    unfold exec at step
    rw [here.2.1, panics] at step
    cases step
  have anywhere (free : stmt = .user ∨ stmt = .kernel ∨ stmt = .wait ∨ stmt = .proc_alloc ∨
        (∃ q, stmt = .copyuvm q) ∨ stmt = .forkret) : stage = .any ∧ stage' = .any := by
    rcases track_free may free with dead | any
    · exact absurd dead lives
    · exact any
  have inside {l : Nat} (same : stmt = .acquiresleep l) : stage = .inner l ∧ stage' = .any := by
    subst same
    rcases track_acquiresleep may with dead | inner
    · exact absurd dead lives
    · exact inner
  cases next with
  | tail stmt checked rest =>
      exact ⟨stage', at_.tail ordered step stays here there may follows pid⟩
  | panic stmt message rest => exact ⟨.dead, .panic m' p message _⟩
  | trap entry allowed rest =>
      rcases anywhere (Or.inl rfl) with ⟨rfl, rfl⟩
      exact ⟨.any, .any (tracked_entry entry follows)⟩
  | call function rest owner =>
      rcases anywhere (Or.inr (Or.inl rfl)) with ⟨rfl, rfl⟩
      by_cases releases : ∃ l, function = .releasesleep l
      · rcases releases with ⟨l, rfl⟩
        refine ⟨.owner l, (follows_append (walk_releasesleep l)).mpr follows, ?_⟩
        change m'.pid p ∈ m'.between l
        rw [pid]
        rcases exec_between step (owner l rfl) with kept | ⟨_, _, _, _, code⟩
        · exact kept
        · rw [here.2.1] at code
          cases code
      · exact ⟨.any, .any (tracked_call function (fun l same => releases ⟨l, same⟩) follows)⟩
  | sleepInWait childless rest =>
      rcases anywhere (Or.inr (Or.inr (Or.inl rfl))) with ⟨rfl, rfl⟩
      exact ⟨.waiting, (follows_append walk_wait_sleep).mpr at_.tracked,
        At.sleepInWait ordered step here there childless⟩
  | waitEnds rest =>
      rcases anywhere (Or.inr (Or.inr (Or.inl rfl))) with ⟨rfl, rfl⟩
      exact ⟨.any, .any follows⟩
  | allocFails rest =>
      rcases anywhere (Or.inr (Or.inr (Or.inr (Or.inl rfl)))) with ⟨rfl, rfl⟩
      exact ⟨.any, .any follows⟩
  | noStack rest =>
      rcases anywhere (Or.inr (Or.inr (Or.inr (Or.inl rfl)))) with ⟨rfl, rfl⟩
      exact ⟨.any, .any (tracked_dead rest)⟩
  | allocated q unused rest =>
      rcases anywhere (Or.inr (Or.inr (Or.inr (Or.inl rfl)))) with ⟨rfl, rfl⟩
      exact ⟨.any, .any follows⟩
  | copied q rest =>
      rcases anywhere (Or.inr (Or.inr (Or.inr (Or.inr (Or.inl ⟨q, rfl⟩))))) with ⟨rfl, rfl⟩
      have body : walk (track p) .any
          [.setParent q, .setChildRunnable q, .returnPid q] = some .any := by
        simp [track]
      exact ⟨.any, .any ((follows_append body).mpr follows)⟩
  | first rest =>
      rcases anywhere (Or.inr (Or.inr (Or.inr (Or.inr (Or.inr rfl))))) with ⟨rfl, rfl⟩
      exact ⟨.any, .any follows⟩
  | sleepOnLock l locked rest =>
      rcases inside rfl with ⟨rfl, rfl⟩
      exact ⟨.dozing l, (follows_append (walk_lock_sleep l)).mpr at_.tracked,
        Keeps.here ordered step here there at_.knows (by simp),
        locked_here step here (by simp) locked⟩
  | lockTaken l rest =>
      rcases inside rfl with ⟨rfl, rfl⟩
      refine ⟨.closing l, ?_, Keeps.here ordered step here there at_.knows (by simp)⟩
      exact (follows_cons (b := .any) (by simp [track])).mpr follows

theorem Courses.step (courses : m.Courses) (kin : m.Kin) (ordered : m.Ordered phase)
    (numbered : m.Numbered) {phase' : Fin cpus → Phase slots} (ordered' : m'.Ordered phase')
    {a : Action slots} (step : exec c a m = some m') : m'.Courses := by
  intro p k there
  have kin' := kin.step ordered step
  have used' := kin'.continues_used ordered' there
  cases nonempty : k with
  | nil => exact ⟨.any, .any rfl⟩
  | cons stmt' rest' =>
  rw [← nonempty]
  -- the process does not execute, and goes on with what it had saved
  have saved (saved : m.context p = some k) : ∃ stage, m'.At p k stage := by
    rcases courses p k (Or.inl saved) with ⟨stage, at_⟩
    refine ⟨stage, at_.tracked, ?_⟩
    apply at_.knows.spared kin courses ordered step ?_ numbered kin'
      (kin.continues_used ordered (Or.inl saved)) used' ?_
    · intro stmt rest here
      rw [kin.away c p stmt rest here] at saved
      cases saved
    · intro lk keeps
      rcases keeps with ⟨c', here, _⟩
      rw [nonempty] at here
      rw [kin.away c' p stmt' rest' here] at saved
      cases saved
  rcases there with there | ⟨c', there⟩
  · rcases exec_context step ordered there with ⟨same, _⟩ | left | ⟨new, _⟩
    · exact saved same
    · rcases courses p _ (Or.inr ⟨c, left⟩) with ⟨stage, at_⟩
      exact at_.sched kin courses ordered step left
    · rw [new]
      exact ⟨.any, .any tracked_forkret⟩
  · rcases exec_executes step ordered there with
      ⟨other, before⟩ | ⟨rfl, empty | ⟨_, _, same⟩ | ⟨stmt, rest, here, stays, next⟩⟩
    · rcases courses p k (Or.inr ⟨c', before⟩) with ⟨stage, at_⟩
      refine ⟨stage, at_.tracked, ?_⟩
      apply at_.knows.spared kin courses ordered step ?_ numbered kin'
        (kin.continues_used ordered (Or.inr ⟨c', before⟩)) used' ?_
      · intro stmt rest here
        exact other (ordered.one c' c p before.1 here.1)
      · intro lk keeps
        apply keeps.after ?_ step ordered
        intro here
        exact other (ordered.one c' c p before.1 here)
    · rw [nonempty] at empty
      cases empty
    · exact saved same
    · rcases courses p _ (Or.inr ⟨c', here⟩) with ⟨stage, at_⟩
      exact at_.next ordered step stays here there next
        ((exec_effect step).pid_kept (kin.continues_used ordered (Or.inr ⟨c', here⟩)) used')

theorem Fresh.courses (fresh : m.Fresh)
    (saved : ∀ p, (m.proc p).state = .UNUSED → m.context p = none) : m.Courses := by
  intro p k there
  rw [(fresh.continues saved there).1]
  exact ⟨.any, .any tracked_forkret⟩

end Machine

/-- In every state of every run each process is in some stage. -/
theorem Reachable.courses (reachable : Reachable m) : m.Courses := by
  induction reachable with
  | boot page idle booted => exact (main_fresh booted).1.courses (saved_of_main booted)
  | step before next ih =>
      have after := (before.step next).scheduled
      cases next with
      | exec c a effect =>
          rcases before.scheduled with ⟨phase, ordered⟩
          rcases after with ⟨phase', ordered'⟩
          exact ih.step before.kin ordered before.numbered ordered' effect

end PiKernel.Ptable
