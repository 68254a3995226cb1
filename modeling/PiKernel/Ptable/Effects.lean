import PiKernel.Ptable.Boot

/-!
# What one statement does to the table

Most statements concern the locks, the continuations or fields that no other process
reads.  `Effect` lists the others, and what each of them does to the slots, the pages of
kernel stacks and the history of the processes.
-/

namespace PiKernel.Ptable

open PiKernel.Trap (ProcState)

variable
    {slots cpus : Nat}

/-- Births, exits and what `wait` returns. -/
def Event.isFamily : Event slots → Bool
  | .born _ _ | .forked _ _ | .exited _ | .adopted _ _ | .waited _ _ | .noChild _ => true
  | _ => false

namespace Machine

def family (m : Machine slots cpus) : List (Event slots) := m.events.filter Event.isFamily

/-- The fields that only `proc_alloc` and `wait` write. -/
structure Kept (m m' : Machine slots cpus) : Prop where
  nextpid : m'.nextpid = m.nextpid
  initproc : m'.initproc = m.initproc
  program : m'.program = m.program
  stack : m'.stack = m.stack

end Machine

/-- The fields of a slot that tell who is whose child. -/
structure Alike (p p' : Proc slots) : Prop where
  state : p'.state = p.state
  pid : p'.pid = p.pid
  parent : p'.parent = p.parent
  killed : p'.killed = p.killed
  kstack : p.state ≠ .UNUSED → p'.kstack = p.kstack

theorem Alike.refl (p : Proc slots) : Alike p p := ⟨rfl, rfl, rfl, rfl, fun _ => rfl⟩

/-- What `exit` passes on. -/
def adoptions (m : Machine slots cpus) (me : Fin slots) : List (Event slots) :=
  ((List.finRange slots).filter fun p => (m.proc p).parent = some me).flatMap fun p =>
    m.initproc.toList.map fun i => .adopted (m.pid i) (m.pid p)

inductive Effect (c : Fin cpus) (m m' : Machine slots cpus) : Prop where
  | quiet (proc : ∀ p, Alike (m.proc p) (m'.proc p)) (kept : m.Kept m')
      (family : m'.family = m.family)
  | alloc (me p : Fin slots) (page : Nat) (k : Code slots)
      (here : m.current c = some me) (code : m.code c = .proc_alloc :: k)
      (unused : (m.proc p).state = .UNUSED)
      (room : m.stack page = false ∧ m.nextpid < INT_MAX)
      (proc : m'.proc = m.proc.alloc p page m.nextpid)
      (nextpid : m'.nextpid = m.nextpid + 1) (initproc : m'.initproc = m.initproc)
      (program : m'.program = Function.update m.program p (m.program me))
      (stack : m'.stack = Function.update m.stack page true) (family : m'.family = m.family)
  | discard (p : Fin slots) (k : Code slots) (code : m.code c = .copyuvm p :: k)
      (proc : m'.proc = Function.update m.proc p
        { m.proc p with
          kstack := none
          state := .UNUSED })
      (nextpid : m'.nextpid = m.nextpid) (initproc : m'.initproc = m.initproc)
      (program : m'.program = m.program)
      (stack : ∀ page, m'.stack page =
        (m.stack page && decide ((m.proc p).kstack ≠ some page)))
      (family : m'.family = m.family)
  | born (me p : Fin slots) (k : Code slots)
      (here : m.current c = some me) (code : m.code c = .setParent p :: k)
      (proc : m'.proc = Function.update m.proc p { m.proc p with parent := some me })
      (kept : m.Kept m') (family : m'.family = .born (m.pid me) (m.pid p) :: m.family)
  | ready (p : Fin slots) (k : Code slots) (code : m.code c = .setChildRunnable p :: k)
      (proc : m'.proc = Function.update m.proc p { m.proc p with state := .RUNNABLE })
      (kept : m.Kept m') (family : m'.family = m.family)
  | forked (me p : Fin slots) (k : Code slots)
      (here : m.current c = some me) (code : m.code c = .returnPid p :: k)
      (proc : m'.proc = m.proc) (kept : m.Kept m')
      (family : m'.family = .forked (m.pid me) (m.pid p) :: m.family)
  | run (p : Fin slots) (runnable : (m.proc p).state = .RUNNABLE)
      (proc : m'.proc = Function.update m.proc p { m.proc p with state := .RUNNING })
      (kept : m.Kept m') (family : m'.family = m.family)
  | leave (me : Fin slots) (chan : Option (Chan slots)) (state : ProcState) (stmt : Stmt slots)
      (k : Code slots) (here : m.current c = some me) (code : m.code c = stmt :: k)
      (leaves : state = .SLEEPING ∧ stmt = .setSleeping chan ∨
        state = .RUNNABLE ∧ stmt = .setRunnable)
      (proc : m'.proc = Function.update m.proc me
        { m.proc me with
          chan := if state = .SLEEPING then chan else (m.proc me).chan
          state := state })
      (kept : m.Kept m') (family : m'.family = m.family)
  | wakeup (chan : Option (Chan slots)) (k : Code slots) (code : m.code c = .wakeup1 chan :: k)
      (proc : m'.proc = m.proc.wakeup1 chan) (kept : m.Kept m') (family : m'.family = m.family)
  | exiting (me : Fin slots) (k : Code slots)
      (here : m.current c = some me) (code : m.code c = .checkInit :: k)
      (code' : m'.code = Function.update m.code c k)
      (other : some me ≠ m.initproc) (proc : m'.proc = m.proc) (kept : m.Kept m')
      (family : m'.family = .exited (m.pid me) :: m.family)
  | exit (me : Fin slots) (k : Code slots)
      (here : m.current c = some me) (code : m.code c = .exit :: k)
      (proc : m'.proc = m.proc.exit me m.initproc) (kept : m.Kept m')
      (family : m'.family = adoptions m me ++ m.family)
  | reap (me p : Fin slots) (k : Code slots)
      (here : m.current c = some me) (code : m.code c = .wait :: k)
      (found : m.proc.zombie me = some p)
      (proc : m'.proc = m.proc.reap p)
      (nextpid : m'.nextpid = m.nextpid) (initproc : m'.initproc = m.initproc)
      (program : m'.program = m.program)
      (stack : ∀ page, m'.stack page =
        (m.stack page && decide ((m.proc p).kstack ≠ some page)))
      (family : m'.family = .waited (m.pid me) (m.pid p) :: m.family)
  | noChild (me : Fin slots) (k : Code slots)
      (here : m.current c = some me) (code : m.code c = .wait :: k)
      (childless : m.proc.havekids me = false ∨ (m.proc me).killed)
      (proc : m'.proc = m.proc) (kept : m.Kept m')
      (family : m'.family = .noChild (m.pid me) :: m.family)

namespace Machine

variable
    (m : Machine slots cpus)

@[simp]
theorem family_goto (c : Fin cpus) (code : Code slots) : (m.goto c code).family = m.family :=
  rfl

@[simp]
theorem family_set (p : Fin slots) (proc : Proc slots) : (m.set p proc).family = m.family :=
  rfl

theorem family_record (events : List (Event slots)) :
    (m.record events).family = events.filter Event.isFamily ++ m.family := by
  unfold family record
  exact List.filter_append _ _

/-- An event of another kind. -/
theorem family_note (c : Fin cpus) (event : Nat → Event slots)
    (other : ∀ n, (event n).isFamily = false) : (m.note c event).family = m.family := by
  unfold note
  rw [family_record]
  cases m.current c with
  | none => rfl
  | some p => simp [other]

theorem family_wake (woken : Fin slots → Bool) : (m.wake woken).family = m.family := by
  unfold wake
  rw [family_record, List.filter_eq_nil_iff.mpr, List.nil_append]
  intro event here
  rcases List.mem_map.mp here with ⟨p, _, rfl⟩
  exact Bool.false_ne_true

end Machine

namespace Effect

variable
    {m m' : Machine slots cpus}
    {c : Fin cpus}
    {k : Code slots}

theorem alike_update {t : Table slots} {q : Fin slots} {proc : Proc slots}
    (alike : Alike (t q) proc) (p : Fin slots) : Alike (t p) (Function.update t q proc p) := by
  by_cases same : p = q
  · subst same
    rwa [Function.update_self]
  · rw [Function.update_of_ne same]
    exact Alike.refl _

/-- Nothing but locks and continuations. -/
theorem still (proc : m'.proc = m.proc) (kept : m.Kept m') (family : m'.family = m.family) :
    Effect c m m' :=
  .quiet (fun p => by rw [proc]; exact Alike.refl _) kept family

/-- A field that does not concern the family is written. -/
theorem set {q : Fin slots} {proc : Proc slots} (alike : Alike (m.proc q) proc) :
    Effect c m ((m.set q proc).goto c k) :=
  .quiet (alike_update alike) ⟨rfl, rfl, rfl, rfl⟩ rfl

theorem runAcquire {lk : Lock} (step : Stmt.runAcquire c k m lk = some m') :
    Effect c m m' := by
  unfold Stmt.runAcquire at step
  split at step
  · cases step
    exact still rfl ⟨rfl, rfl, rfl, rfl⟩ rfl
  · split at step
    · cases step
      exact still rfl ⟨rfl, rfl, rfl, rfl⟩ (Machine.family_note _ c (.acquired · lk) fun _ => rfl)
    · cases step

theorem runRelease {lk : Lock} (step : Stmt.runRelease c k m lk = some m') :
    Effect c m m' := by
  unfold Stmt.runRelease at step
  split at step <;> cases step <;> exact still rfl ⟨rfl, rfl, rfl, rfl⟩ rfl

theorem runSched (step : Stmt.runSched c k m = some m') : Effect c m m' := by
  unfold Stmt.runSched at step
  split at step
  · cases step
  · split at step
    · cases step
      exact still rfl ⟨rfl, rfl, rfl, rfl⟩ rfl
    · split at step
      · cases step
        exact still rfl ⟨rfl, rfl, rfl, rfl⟩ rfl
      · rcases Option.map_eq_some_iff.mp step with ⟨code, _, rfl⟩
        exact still rfl ⟨rfl, rfl, rfl, rfl⟩ rfl

theorem runPick (step : Stmt.runPick c k m = some m') : Effect c m m' := by
  unfold Stmt.runPick at step
  split at step
  · cases step
    exact still rfl ⟨rfl, rfl, rfl, rfl⟩ rfl
  · next p found =>
      cases step
      exact .run p (Table.pick_state found) rfl ⟨rfl, rfl, rfl, rfl⟩ rfl

theorem runExit {me : Fin slots} (here : m.current c = some me) (code : m.code c = .exit :: k) :
    Effect c m (Stmt.runExit c k m me) := by
  refine .exit me k here code rfl ⟨rfl, rfl, rfl, rfl⟩ ?_
  change ((m.wake _).record (adoptions m me)).family = _
  rw [Machine.family_record, Machine.family_wake, List.filter_eq_self.mpr]
  intro event mem
  simp only [adoptions, List.mem_flatMap, List.mem_map] at mem
  rcases mem with ⟨p, _, i, _, rfl⟩
  rfl

theorem runWait {me : Fin slots} (here : m.current c = some me) (code : m.code c = .wait :: k) :
    Effect c m (Stmt.runWait c k m me) := by
  unfold Stmt.runWait
  split
  · next p found =>
      exact .reap me p k here code found rfl rfl rfl rfl (fun _ => rfl)
        (Machine.family_record m _)
  · split
    · next childless =>
        exact .noChild me k here code childless rfl ⟨rfl, rfl, rfl, rfl⟩
          (Machine.family_record m _)
    · exact still rfl ⟨rfl, rfl, rfl, rfl⟩ rfl

theorem runAlloc {a : Action slots} {me : Fin slots} (here : m.current c = some me)
    (code : m.code c = .proc_alloc :: k) (step : Stmt.runAlloc c k m a me = some m') :
    Effect c m m' := by
  unfold Stmt.runAlloc at step
  split at step
  · cases step
    exact still rfl ⟨rfl, rfl, rfl, rfl⟩ rfl
  · next p found =>
      have unused := Table.unused_state found
      split at step
      · cases step
        exact set ⟨rfl, rfl, rfl, rfl, fun used => absurd unused used⟩
      · next page =>
          split at step
          · next room =>
              cases step
              exact .alloc me p page k here code unused room rfl rfl rfl rfl rfl rfl
          · cases step
      · cases step

theorem runCopyuvm {a : Action slots} {p : Fin slots} (code : m.code c = .copyuvm p :: k)
    (step : Stmt.runCopyuvm c k m p a = some m') : Effect c m m' := by
  unfold Stmt.runCopyuvm at step
  split at step
  · cases step
    exact still rfl ⟨rfl, rfl, rfl, rfl⟩ rfl
  · cases step
    exact .discard p k code rfl rfl rfl rfl (fun _ => rfl) rfl
  · cases step

theorem runProc {a : Action slots} {me : Fin slots} {stmt : Stmt slots}
    (here : m.current c = some me) (code : m.code c = stmt :: k)
    (step : Stmt.runProc c k m a me stmt = some m') : Effect c m m' := by
  cases stmt with
  | user =>
      simp only [Stmt.runProc] at step
      split at step
      · split at step <;> cases step
        exact still rfl ⟨rfl, rfl, rfl, rfl⟩ rfl
      · cases step
  | kernel =>
      simp only [Stmt.runProc, Stmt.runCall] at step
      split at step
      · cases step
        exact still rfl ⟨rfl, rfl, rfl, rfl⟩ rfl
      · split at step
        · split at step <;> cases step
          exact still rfl ⟨rfl, rfl, rfl, rfl⟩ rfl
        · cases step
          exact still rfl ⟨rfl, rfl, rfl, rfl⟩ rfl
      · cases step
  | sleep chan lk =>
      simp only [Stmt.runProc] at step
      split at step
      · cases step
        exact still rfl ⟨rfl, rfl, rfl, rfl⟩
          (Machine.family_note m c (.sleep · chan lk) fun _ => rfl)
      · cases step
        exact still rfl ⟨rfl, rfl, rfl, rfl⟩ rfl
  | setSleeping chan =>
      cases step
      exact .leave me chan .SLEEPING _ k here code (Or.inl ⟨rfl, rfl⟩) rfl
        ⟨rfl, rfl, rfl, rfl⟩ rfl
  | setRunnable =>
      cases step
      exact .leave me none .RUNNABLE _ k here code (Or.inr ⟨rfl, rfl⟩) rfl
        ⟨rfl, rfl, rfl, rfl⟩ rfl
  | slept lk =>
      cases step
      exact still rfl ⟨rfl, rfl, rfl, rfl⟩ (Machine.family_note m c _ fun _ => rfl)
  | wakeup1 chan =>
      cases step
      exact .wakeup chan k code rfl ⟨rfl, rfl, rfl, rfl⟩ (Machine.family_wake m _)
  | checkInit =>
      simp only [Stmt.runProc] at step
      split at step
      · cases step
        exact still rfl ⟨rfl, rfl, rfl, rfl⟩ rfl
      · next other =>
          cases step
          refine .exiting me k here code rfl other rfl ⟨rfl, rfl, rfl, rfl⟩ ?_
          rw [Machine.family_goto]
          unfold Machine.note
          rw [here]
          exact Machine.family_record m _
  | exit =>
      cases step
      exact runExit here code
  | wait =>
      cases step
      exact runWait here code
  | proc_alloc => exact runAlloc here code step
  | copyuvm p => exact runCopyuvm code step
  | setParent p =>
      cases step
      exact .born me p k here code rfl ⟨rfl, rfl, rfl, rfl⟩ (Machine.family_record m _)
  | setChildRunnable p =>
      cases step
      exact .ready p k code rfl ⟨rfl, rfl, rfl, rfl⟩ rfl
  | returnPid p =>
      cases step
      exact .forked me p k here code rfl ⟨rfl, rfl, rfl, rfl⟩ (Machine.family_record m _)
  | forkret =>
      simp only [Stmt.runProc] at step
      split at step <;> cases step <;> exact still rfl ⟨rfl, rfl, rfl, rfl⟩ rfl
  | acquiresleep l =>
      cases step
      unfold Stmt.runAcquiresleep
      split <;> exact still rfl ⟨rfl, rfl, rfl, rfl⟩ rfl
  | unlock l =>
      cases step
      exact still rfl ⟨rfl, rfl, rfl, rfl⟩ rfl
  | clearChan | drop_priority | raise_priority | set_cpus_allowed mask =>
      cases step
      exact set ⟨rfl, rfl, rfl, rfl, fun _ => rfl⟩
  | _ => cases step

end Effect

/-- Every step has one of the effects. -/
theorem exec_effect {m m' : Machine slots cpus} {c : Fin cpus} {a : Action slots}
    (step : exec c a m = some m') : Effect c m m' := by
  unfold exec at step
  split at step
  · cases step
  · cases step
  · exact Effect.runAcquire step
  · exact Effect.runRelease step
  · exact Effect.runSched step
  · cases step
    exact Effect.still rfl ⟨rfl, rfl, rfl, rfl⟩ rfl
  · exact Effect.runPick step
  · rcases Option.map_eq_some_iff.mp step with ⟨code, _, rfl⟩
    exact Effect.still rfl ⟨rfl, rfl, rfl, rfl⟩ rfl
  · cases step
    exact Effect.still rfl ⟨rfl, rfl, rfl, rfl⟩ rfl
  · next stmt k _ _ _ _ _ _ _ _ code =>
      rcases Option.bind_eq_some_iff.mp step with ⟨me, here, step⟩
      exact Effect.runProc here code step

end PiKernel.Ptable
