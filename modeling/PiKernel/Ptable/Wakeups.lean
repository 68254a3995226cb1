import PiKernel.Ptable.Sleeping

/-!
# No wakeup is lost

A process that has called `sleep` and has not been woken up either still holds the lock
that it gives up, or holds `ptable.lock`, or is `SLEEPING` on the channel.  Who acquires
the first lock after the call finds it in one of the last two, and who calls `wakeup` in
the last.
-/

namespace PiKernel.Ptable

open PiKernel.Conc
open PiKernel.Trap (ProcState)

variable
    {slots cpus : Nat}
    {m m' : Machine slots cpus}
    {phase : Fin cpus → Phase slots}
    {c : Fin cpus}
    {k rest : Code slots}
    {p q : Fin slots}
    {n : Nat}
    {chan : Option (Chan slots)}
    {lk : Lock}
    {later : List (Event slots)}

/-! ## Events -/

/-- A call of `acquire` or of `sleep` has been recorded. -/
def Event.isCall : Event slots → Bool
  | .acquired _ _ | .sleep _ _ _ => true
  | _ => false

/-- What a step records. -/
inductive Recorded (c : Fin cpus) (m m' : Machine slots cpus) : List (Event slots) → Prop where
  | acquired (me : Fin slots) (lk : Lock) (k : Code slots) (code : m.code c = .acquire lk :: k)
      (free : m.held lk = none) : Recorded c m m' [.acquired (m.pid me) lk]
  | sleep (me : Fin slots) (chan : Option (Chan slots)) (lk : Lock) (k : Code slots)
      (here : m.current c = some me) (code : m.code c = .sleep chan lk :: k)
      (code' : m'.code = Function.update m.code c k) (current : m'.current = m.current) :
      Recorded c m m' [.sleep (m.pid me) chan lk]
  | other (new : List (Event slots)) (other : ∀ event ∈ new, event.isCall = false) :
      Recorded c m m' new

theorem Recorded.none : Recorded c m m' [] := .other [] (by simp)

theorem Recorded.one {event : Event slots} (other : event.isCall = false) :
    Recorded c m m' [event] := by
  apply Recorded.other
  intro event' mem
  cases List.mem_singleton.mp mem
  exact other

/-- What a process records. -/
theorem runProc_recorded {a : Action slots} {me : Fin slots} {stmt : Stmt slots}
    (here : m.current c = some me) (code : m.code c = stmt :: rest)
    (step : Stmt.runProc c rest m a me stmt = some m') :
    ∃ new, m'.events = new ++ m.events ∧ Recorded c m m' new := by
  have noted (event : Nat → Event slots) :
      (m.note c event).events = [event (m.pid me)] ++ m.events := by
    unfold Machine.note
    rw [here]
    rfl
  have woken (wakes : Fin slots → Bool) (event : Event slots)
      (mem : event ∈ ((List.finRange slots).filter wakes).map fun p => .woken (m.pid p)) :
      event.isCall = false := by
    rcases List.mem_map.mp mem with ⟨_, _, rfl⟩
    rfl
  cases stmt with
  | user | forkret =>
      simp only [Stmt.runProc] at step
      repeat' split at step
      all_goals cases step
      all_goals exact ⟨[], rfl, .none⟩
  | kernel =>
      simp only [Stmt.runProc, Stmt.runCall] at step
      repeat' split at step
      all_goals cases step
      all_goals exact ⟨[], rfl, .none⟩
  | sleep chan lk =>
      simp only [Stmt.runProc] at step
      split at step <;> cases step
      · exact ⟨_, noted (.sleep · chan lk), .sleep me chan lk rest here code rfl rfl⟩
      · exact ⟨[], rfl, .none⟩
  | checkInit =>
      simp only [Stmt.runProc] at step
      split at step <;> cases step
      · exact ⟨[], rfl, .none⟩
      · exact ⟨_, noted .exited, .one rfl⟩
  | wait =>
      cases step
      unfold Stmt.runWait
      split
      · exact ⟨_, rfl, .one rfl⟩
      · split
        · exact ⟨_, rfl, .one rfl⟩
        · exact ⟨[], rfl, .none⟩
  | proc_alloc =>
      simp only [Stmt.runProc, Stmt.runAlloc] at step
      repeat' split at step
      all_goals cases step
      all_goals exact ⟨[], rfl, .none⟩
  | copyuvm p =>
      simp only [Stmt.runProc, Stmt.runCopyuvm] at step
      split at step <;> cases step <;> exact ⟨[], rfl, .none⟩
  | acquiresleep l =>
      cases step
      unfold Stmt.runAcquiresleep
      split <;> exact ⟨[], rfl, .none⟩
  | wakeup1 chan =>
      cases step
      exact ⟨_, rfl, .other _ (woken _)⟩
  | exit =>
      cases step
      refine ⟨_ ++ _, (List.append_assoc _ _ _).symm, .other _ ?_⟩
      intro event mem
      rcases List.mem_append.mp mem with adopted | wakes
      · rcases List.mem_flatMap.mp adopted with ⟨_, _, adopted⟩
        rcases List.mem_map.mp adopted with ⟨_, _, rfl⟩
        rfl
      · exact woken _ event wakes
  | slept lk =>
      cases step
      exact ⟨_, noted .slept, .one rfl⟩
  | setParent q | returnPid q =>
      cases step
      exact ⟨_, rfl, .one rfl⟩
  | setSleeping _ | setRunnable | clearChan | setChildRunnable _ | unlock _ | drop_priority
  | raise_priority | set_cpus_allowed _ =>
      cases step
      exact ⟨[], rfl, .none⟩
  | _ => cases step

theorem exec_recorded {a : Action slots} (step : exec c a m = some m') :
    ∃ new, m'.events = new ++ m.events ∧ Recorded c m m' new := by
  unfold exec at step
  split at step
  · cases step
  · cases step
  · next lk k code =>
      unfold Stmt.runAcquire at step
      split at step
      · cases step
        exact ⟨[], rfl, .none⟩
      · split at step <;> cases step
        next free =>
        cases here : m.current c with
        | none =>
            refine ⟨[], ?_, .none⟩
            change (Option.toList (m.current c)).map _ ++ m.events = _
            rw [here]
            rfl
        | some me =>
            refine ⟨_, ?_, .acquired me lk k code free⟩
            change (Option.toList (m.current c)).map _ ++ m.events = _
            rw [here]
            rfl
  · unfold Stmt.runRelease at step
    split at step <;> cases step <;> exact ⟨[], rfl, .none⟩
  · unfold Stmt.runSched at step
    split at step
    · cases step
    · split at step
      · cases step
        exact ⟨[], rfl, .none⟩
      · split at step
        · cases step
          exact ⟨[], rfl, .none⟩
        · rcases Option.map_eq_some_iff.mp step with ⟨_, _, rfl⟩
          exact ⟨[], rfl, .none⟩
  · cases step
    exact ⟨[], rfl, .none⟩
  · unfold Stmt.runPick at step
    split at step <;> cases step <;> exact ⟨[], rfl, .none⟩
  · rcases Option.map_eq_some_iff.mp step with ⟨_, _, rfl⟩
    exact ⟨[], rfl, .none⟩
  · cases step
    exact ⟨[], rfl, .none⟩
  · next stmt rest _ _ _ _ _ _ _ _ code =>
      rcases Option.bind_eq_some_iff.mp step with ⟨me, here, step⟩
      exact runProc_recorded here code step

/-! ## The end of sleep -/

/-- A process that sleeps is woken up in `wakeup1` and `exit`. -/
theorem Effect.sleeper (effect : Effect c m m') (ordered : m.Ordered phase)
    (asleep : (m.proc p).state = .SLEEPING) :
    (m'.proc p).state = .SLEEPING ∨
      (∃ chan k, m.code c = .wakeup1 chan :: k ∧ (m.proc p).chan = chan) ∨
      ∃ me k, m.current c = some me ∧ m.code c = .exit :: k ∧
        m.proc.wakes me m.initproc p := by
  have other {q : Fin slots} (state : (m.proc q).state ≠ .SLEEPING) : p ≠ q := by
    rintro rfl
    exact state asleep
  have written {q : Fin slots} {proc : Proc slots} (state : (m.proc q).state ≠ .SLEEPING)
      (written : m'.proc = Function.update m.proc q proc) :
      (m'.proc p).state = .SLEEPING := by
    rw [written, Function.update_of_ne (other state)]
    exact asleep
  cases effect with
  | quiet proc _ _ => exact Or.inl ((proc p).state.trans asleep)
  | alloc me q page k _ _ unused _ proc _ _ _ _ _ =>
      left
      rw [proc, Machine.Ordered.alloc_other page m.nextpid (other (by simp [unused]))]
      exact asleep
  | discard q k code proc _ _ _ _ _ =>
      exact Or.inl (written (by simp [(ordered.embryo_of_stmt code (Or.inl rfl)).2]) proc)
  | born me q k _ code proc _ _ =>
      exact Or.inl
        (written (by simp [(ordered.embryo_of_stmt code (Or.inr (Or.inl rfl))).2]) proc)
  | ready q k code proc _ _ =>
      exact Or.inl
        (written (by simp [(ordered.embryo_of_stmt code (Or.inr (Or.inr rfl))).2]) proc)
  | forked me q k _ _ proc _ _ | noChild me k _ _ _ proc _ _ =>
      rw [proc]
      exact Or.inl asleep
  | exiting me k _ _ _ _ proc _ _ =>
      rw [proc]
      exact Or.inl asleep
  | run q runnable proc _ _ => exact Or.inl (written (by simp [runnable]) proc)
  | leave me chan state stmt k here code leaves proc _ _ =>
      have locked : phase c = .locked := by
        apply ordered.locked_of_stmt code
        rcases leaves with ⟨_, rfl⟩ | ⟨_, rfl⟩ <;> simp
      exact Or.inl (written (by simp [ordered.running_of_locked here locked]) proc)
  | wakeup chan k code proc _ _ =>
      by_cases same : (m.proc p).chan = chan
      · exact Or.inr (Or.inl ⟨chan, k, code, same⟩)
      · left
        rw [proc, Table.wakeup1_apply]
        exact (if_neg fun wakes => same wakes.2).trans asleep
  | exit me k here code proc _ _ =>
      by_cases wakes : m.proc.wakes me m.initproc p
      · exact Or.inr (Or.inr ⟨me, k, here, code, wakes⟩)
      · left
        have locked := ordered.locked_of_stmt code (Or.inl rfl)
        rw [proc, Table.exit_apply]
        exact (if_neg (other (by simp [ordered.running_of_locked here locked]))).trans
          ((if_neg wakes).trans asleep)
  | reap me q k _ _ found proc _ _ _ _ _ =>
      left
      rw [proc, Effect.reap_other m.proc (other (by simp [(Table.zombie_state found).2]))]
      exact asleep

/-- Who is woken up is recorded. -/
theorem exec_woken {a : Action slots} (step : exec c a m = some m')
    (ordered : m.Ordered phase) {new : List (Event slots)} (events : m'.events = new ++ m.events)
    (asleep : (m.proc p).state = .SLEEPING) :
    (m'.proc p).state = .SLEEPING ∨ .woken (m.pid p) ∈ new := by
  have recorded (wakes : Fin slots → Bool) (mine : wakes p) :
      (.woken (m.pid p) : Event slots) ∈
        ((List.finRange slots).filter wakes).map fun p => .woken (m.pid p) :=
    List.mem_map.mpr ⟨p, List.mem_filter.mpr ⟨List.mem_finRange p, mine⟩, rfl⟩
  rcases (exec_effect step).sleeper ordered asleep with
    sleeps | ⟨chan, k, code, same⟩ | ⟨me, k, here, code, wakes⟩
  · exact Or.inl sleeps
  · right
    unfold exec at step
    rw [code] at step
    rcases Option.bind_eq_some_iff.mp step with ⟨me, _, step⟩
    cases step
    rw [← List.append_cancel_right events]
    exact recorded _ (decide_eq_true ⟨asleep, same⟩)
  · right
    unfold exec at step
    rw [code] at step
    simp only [here, Option.bind_some, Stmt.runProc, Option.some.injEq] at step
    subst step
    change _ ++ (_ ++ m.events) = _ at events
    rw [← List.append_assoc] at events
    rw [← List.append_cancel_right events]
    exact List.mem_append_right _ (recorded _ wakes)

/-! ## Between the call of sleep and the wakeup -/

namespace Machine

/-- The process has called `sleep`, these events ago, and has not been woken up. -/
def Pending (m : Machine slots cpus) (n : Nat) (chan : Option (Chan slots)) (lk : Lock)
    (later : List (Event slots)) : Prop :=
  (∃ before, m.events = later ++ .sleep n chan lk :: before) ∧ .woken n ∉ later

/-- The lock has been acquired. -/
def Reacquired (lk : Lock) (later : List (Event slots)) : Prop :=
  ∃ n, .acquired n lk ∈ later

/-- Where the process is that has called `sleep`. -/
inductive Dozing (m : Machine slots cpus) (p : Fin slots) (chan : Option (Chan slots))
    (lk : Lock) (later : List (Event slots)) : Prop where
  | entering (k : Code slots) (at_ : m.At p k (.entering chan lk))
      (quiet : ¬ Reacquired lk later)
  | handing (k : Code slots) (at_ : m.At p k (.handing chan lk)) (quiet : ¬ Reacquired lk later)
  | handed (k : Code slots) (at_ : m.At p k (.handed chan lk))
  | asleep (state : (m.proc p).state = .SLEEPING) (chan : (m.proc p).chan = chan)

def Heeds (m : Machine slots cpus) : Prop :=
  ∀ n chan lk later, m.Pending n chan lk later → ∃ p, m.pid p = n ∧ m.Dozing p chan lk later

/-- The call is the latest event, or was pending before. -/
theorem Pending.split {new : List (Event slots)} (pending : m'.Pending n chan lk later)
    (events : m'.events = new ++ m.events) :
    (∃ old, new = later ++ .sleep n chan lk :: old) ∨
      ∃ later', later = new ++ later' ∧ m.Pending n chan lk later' := by
  rcases pending with ⟨⟨before, whole⟩, quiet⟩
  rw [events] at whole
  rcases List.append_eq_append_iff.mp whole with ⟨later', rfl, rest⟩ | ⟨old, rfl, rest⟩
  · exact Or.inr ⟨later', rfl, ⟨before, rest⟩, fun mem => quiet (List.mem_append_right _ mem)⟩
  · cases old with
    | nil =>
        refine Or.inr ⟨[], by simp, ⟨before, rest.symm⟩, by simp⟩
    | cons event old =>
        cases (List.cons.inj rest).1
        exact Or.inl ⟨old, rfl⟩

/-- The lock is not acquired while a process keeps it. -/
theorem Reacquired.step {new : List (Event slots)} (recorded : Recorded c m m' new)
    (keeps : m.Keeps p k lk) (again : Reacquired lk (new ++ later)) : Reacquired lk later := by
  rcases again with ⟨n, mem⟩
  rcases List.mem_append.mp mem with fresh | old
  · cases recorded with
    | acquired me lk' k' code free =>
        cases List.mem_singleton.mp fresh
        rcases keeps with ⟨c', _, held⟩
        rw [free] at held
        cases held
    | sleep me chan lk' k' here code code' current => cases List.mem_singleton.mp fresh
    | other new other => cases other _ fresh
  · exact ⟨n, old⟩

/-! ## Steps of the process that has called sleep -/

/-- `release` of a lock that is held. -/
theorem exec_released {a : Action slots} (step : exec c a m = some m')
    (code : m.code c = .release lk :: k) (held : m.held lk = some c) :
    m'.code = Function.update m.code c k ∧ m'.current = m.current := by
  unfold exec at step
  rw [code] at step
  simp only [Stmt.runRelease, if_pos held, Option.some.injEq] at step
  subst step
  exact ⟨rfl, rfl⟩

/-- A process that executes code of its own is running. -/
theorem Ordered.running_here {stmt : Stmt slots} (ordered : m.Ordered phase)
    (here : m.Executes c p (stmt :: k)) (stays : stmt ≠ .sched)
    (calm : ∀ message, stmt ≠ .panic message) : (m.proc p).state = .RUNNING := by
  rcases ordered.next here.2.1 calm with ⟨alive, ph, may, -⟩
  have of := here.2.2 stmt rfl
  have allowed := ordered.state c p here.1
  cases at_ : phase c <;> rw [at_] at may allowed alive <;>
    first
    | exact allowed
    | exact allowed.elim
    | skip
  all_goals simp only [permitted] at may
  all_goals split at may <;> cases may
  all_goals next same => subst same; first | exact absurd rfl stays | cases of

theorem pid_running {a : Action slots} (step : exec c a m = some m') (ordered : m.Ordered phase)
    (running : (m.proc p).state = .RUNNING) : m'.pid p = m.pid p := by
  have effect := exec_effect step
  apply effect.pid_kept (by simp [running])
  rcases effect.alive ordered (Or.inr (Or.inr running)) with alive | ⟨_, _, passed⟩
  · exact alive.used
  · rw [passed, Table.exit_apply]
    simp only [ne_eq]
    split
    · simp
    · split
      · simp
      · simp [running]

/-- The processor goes on with the next statement of the process. -/
theorem At.goes {stage stage' : Stage slots} {a : Action slots} {stmt : Stmt slots}
    (ordered : m.Ordered phase) (step : exec c a m = some m') (stays : stmt ≠ .sched)
    (here : m.Executes c p (stmt :: k)) (at_ : m.At p (stmt :: k) stage)
    (may : track p stage stmt = some stage') (lives : stage' ≠ .dead)
    (calm : ∀ message, stmt ≠ .panic message)
    (goes : m'.code = Function.update m.code c k ∧ m'.current = m.current) :
    m'.pid p = m.pid p ∧ m'.At p k stage' := by
  rcases at_.tracked.head with ⟨stage, may', follows⟩
  rw [may] at may'
  cases may'
  have pid := pid_running step ordered (ordered.running_here here stays calm)
  refine ⟨pid, at_.tail ordered step stays here ⟨?_, ?_, tracked_head lives follows⟩ may
    follows pid⟩
  · rw [goes.2]
    exact here.1
  · rw [goes.1, Function.update_self]

/-- The process acquires `ptable.lock`. -/
theorem At.acquires {a : Action slots} (ordered : m.Ordered phase)
    (step : exec c a m = some m') (here : m.Executes c p k)
    (at_ : m.At p k (.entering chan lk)) :
    ∃ k, m'.pid p = m.pid p ∧ m'.At p k (.handing chan lk) := by
  cases k with
  | nil =>
      unfold exec at step
      rw [here.2.1] at step
      cases step
  | cons stmt rest =>
      rcases at_.tracked.head with ⟨_, may, -⟩
      simp only [track] at may
      split at may <;> cases may
      next same =>
        subst same
        exact ⟨rest, at_.goes ordered step (by simp) here (by simp) (by simp) (by simp)
          (ordered.acquires step here.2.1)⟩

/-- The process gives up the lock. -/
theorem At.releases {a : Action slots} (ordered : m.Ordered phase)
    (step : exec c a m = some m') (here : m.Executes c p k)
    (at_ : m.At p k (.handing chan lk)) :
    ∃ k, m'.pid p = m.pid p ∧ m'.At p k (.handed chan lk) := by
  cases k with
  | nil =>
      unfold exec at step
      rw [here.2.1] at step
      cases step
  | cons stmt rest =>
      rcases at_.tracked.head with ⟨_, may, -⟩
      simp only [track] at may
      split at may <;> cases may
      next same =>
        rcases same with ⟨rfl, other⟩
        rcases at_.knows.1 with ⟨c', there, held⟩
        have same := ordered.one c' c p there.1 here.1
        subst same
        exact ⟨rest, at_.goes ordered step (by simp) here (by simp [other]) (by simp)
          (by simp) (exec_released step here.2.1 held)⟩

/-- The process falls asleep. -/
theorem At.dozes {a : Action slots} (ordered : m.Ordered phase) (step : exec c a m = some m')
    (here : m.Executes c p k) (at_ : m.At p k (.handed chan lk)) :
    m'.pid p = m.pid p ∧ (m'.proc p).state = .SLEEPING ∧ (m'.proc p).chan = chan := by
  cases k with
  | nil =>
      unfold exec at step
      rw [here.2.1] at step
      cases step
  | cons stmt rest =>
      rcases at_.tracked.head with ⟨_, may, -⟩
      simp only [track] at may
      split at may <;> cases may
      next same =>
        subst same
        refine ⟨pid_running step ordered (ordered.running_here here (by simp) (by simp)), ?_⟩
        unfold exec at step
        rw [here.2.1] at step
        simp only [here.1, Option.bind_some, Stmt.runProc, Option.some.injEq] at step
        subst step
        have written := Function.update_self p
          { m.proc p with
            chan := chan
            state := .SLEEPING } m.proc
        exact ⟨congrArg Proc.state written, congrArg Proc.chan written⟩

/-! ## Runs -/

/-- Another processor takes a step. -/
theorem At.spared {stage : Stage slots} {a : Action slots} {phase' : Fin cpus → Phase slots}
    {c' : Fin cpus} (at_ : m.At p k stage) (kin : m.Kin) (courses : m.Courses)
    (ordered : m.Ordered phase) (numbered : m.Numbered) (ordered' : m'.Ordered phase')
    (step : exec c a m = some m') (here : m.Executes c' p k) (other : c' ≠ c) :
    m'.pid p = m.pid p ∧ m'.At p k stage := by
  have used := ordered.used here.1
  have used' := ordered'.used (here.after other step ordered).1
  refine ⟨(exec_effect step).pid_kept used used', at_.tracked, ?_⟩
  apply at_.knows.spared kin courses ordered step ?_ numbered (kin.step ordered step) used used'
  · intro lk keeps
    apply keeps.after ?_ step ordered
    intro there
    exact other (ordered.one c' c p here.1 there)
  · intro stmt rest there
    exact other (ordered.one c' c p here.1 there.1)

/-- The channel of a process that sleeps is kept. -/
theorem chan_asleep {a : Action slots} (step : exec c a m = some m') (ordered : m.Ordered phase)
    (asleep : (m.proc p).state = .SLEEPING) : (m'.proc p).chan = (m.proc p).chan := by
  rcases exec_chan (q := p) step with same | ⟨here, stmt, rest, code, writes⟩
  · exact same
  · have running : (m.proc p).state = .RUNNING := by
      apply ordered.running_of_locked here
      rcases writes with rfl | ⟨_, rfl⟩
      · exact ordered.locked_of_clearChan code
      · exact ordered.locked_of_stmt code (by simp)
    rw [asleep] at running
    cases running

theorem Dozing.step {a : Action slots} {phase' : Fin cpus → Phase slots}
    {new : List (Event slots)} (dozing : m.Dozing p chan lk later) (kin : m.Kin)
    (courses : m.Courses) (ordered : m.Ordered phase) (numbered : m.Numbered)
    (ordered' : m'.Ordered phase') (step : exec c a m = some m')
    (events : m'.events = new ++ m.events) (recorded : Recorded c m m' new)
    (sleeps : .woken (m.pid p) ∉ new) :
    m'.pid p = m.pid p ∧ m'.Dozing p chan lk (new ++ later) := by
  cases dozing with
  | entering k at_ quiet =>
      have quiet' : ¬ Reacquired lk (new ++ later) :=
        fun again => quiet (again.step recorded at_.knows.1)
      rcases at_.knows.1 with ⟨c', here, _⟩
      by_cases same : c' = c
      · subst same
        rcases at_.acquires ordered step here with ⟨k', pid, after⟩
        exact ⟨pid, .handing k' after quiet'⟩
      · rcases at_.spared kin courses ordered numbered ordered' step here same with ⟨pid, after⟩
        exact ⟨pid, .entering k after quiet'⟩
  | handing k at_ quiet =>
      rcases at_.knows.1 with ⟨c', here, _⟩
      by_cases same : c' = c
      · subst same
        rcases at_.releases ordered step here with ⟨k', pid, after⟩
        exact ⟨pid, .handed k' after⟩
      · rcases at_.spared kin courses ordered numbered ordered' step here same with ⟨pid, after⟩
        exact ⟨pid, .handing k after fun again => quiet (again.step recorded at_.knows.1)⟩
  | handed k at_ =>
      rcases at_.knows.1 with ⟨c', here, _⟩
      by_cases same : c' = c
      · subst same
        rcases at_.dozes ordered step here with ⟨pid, state, chan⟩
        exact ⟨pid, .asleep state chan⟩
      · rcases at_.spared kin courses ordered numbered ordered' step here same with ⟨pid, after⟩
        exact ⟨pid, .handed k after⟩
  | asleep state chan =>
      rcases exec_woken step ordered events state with still | woken
      · have pid := (exec_effect step).pid_kept (p := p) (by simp [state]) (by simp [still])
        exact ⟨pid, .asleep still ((chan_asleep step ordered state).trans chan)⟩
      · exact absurd woken sleeps

/-- A process calls `sleep`. -/
theorem Courses.sleeps {a : Action slots} (courses : m.Courses) (ordered : m.Ordered phase)
    (step : exec c a m = some m') (here : m.current c = some p)
    (code : m.code c = .sleep chan lk :: k)
    (goes : m'.code = Function.update m.code c k ∧ m'.current = m.current) :
    m'.pid p = m.pid p ∧ m'.Dozing p chan lk [] := by
  have executes := executes_cons here code rfl
  have quiet : ¬ Reacquired lk ([] : List (Event slots)) := by simp [Reacquired]
  rcases courses p _ (Or.inr ⟨c, executes⟩) with ⟨stage, at_⟩
  rcases at_.tracked.head with ⟨stage', may, -⟩
  have after (lives : stage' ≠ .dead) :=
    at_.goes ordered step (by simp) executes may lives (by simp) goes
  cases stage with
  | any =>
      cases lk with
      | spin l =>
          cases may
          exact ⟨(after (by simp)).1, .entering k (after (by simp)).2 quiet⟩
      | ptable | inner l => cases may
  | waiting =>
      simp only [track, Stmt.sleep.injEq] at may
      split at may <;> cases may
      next same =>
        rcases same with ⟨rfl, rfl⟩
        exact ⟨(after (by simp)).1, .handed k (after (by simp)).2⟩
  | dozing l =>
      simp only [track, Stmt.sleep.injEq] at may
      split at may <;> cases may
      next same =>
        rcases same with ⟨rfl, rfl⟩
        exact ⟨(after (by simp)).1, .entering k (after (by simp)).2 quiet⟩
  | dead =>
      rcases at_.knows with ⟨_, _, never⟩
      cases never
  | resumed lk' => cases lk' <;> simp at may
  | _ => simp at may

theorem Heeds.step {a : Action slots} {phase' : Fin cpus → Phase slots} (heeds : m.Heeds)
    (kin : m.Kin) (courses : m.Courses) (ordered : m.Ordered phase) (numbered : m.Numbered)
    (ordered' : m'.Ordered phase') (step : exec c a m = some m') : m'.Heeds := by
  intro n chan lk later pending
  rcases exec_recorded step with ⟨new, events, recorded⟩
  rcases pending.split events with ⟨old, whole⟩ | ⟨later', rfl, before⟩
  · cases recorded with
    | acquired me lk' k code free =>
        cases later with
        | nil => cases whole
        | cons event later => simp at whole
    | sleep me chan' lk' k here code code' current =>
        cases later with
        | nil =>
            cases whole
            rcases courses.sleeps ordered step here code ⟨code', current⟩ with ⟨pid, dozing⟩
            exact ⟨me, pid, dozing⟩
        | cons event later => simp at whole
    | other new other =>
        have mem : .sleep n chan lk ∈ new := by simp [whole]
        cases other _ mem
  · rcases heeds n chan lk later' before with ⟨p, rfl, dozing⟩
    have sleeps : .woken (m.pid p) ∉ new :=
      fun woken => pending.2 (List.mem_append_left _ woken)
    rcases dozing.step kin courses ordered numbered ordered' step events recorded sleeps with
      ⟨pid, after⟩
    exact ⟨p, pid, after⟩

end Machine

theorem Reachable.heeds (reachable : Reachable m) : m.Heeds := by
  induction reachable with
  | boot page idle booted =>
      intro n chan lk later pending
      rcases pending.1 with ⟨before, events⟩
      rw [(main_fresh booted).1.events] at events
      cases later <;> cases events
  | step before next ih =>
      have after := (before.step next).scheduled
      cases next with
      | exec c a effect =>
          rcases before.scheduled with ⟨phase, ordered⟩
          rcases after with ⟨phase', ordered'⟩
          exact ih.step before.kin before.courses ordered before.numbered ordered' effect

/-- A process that wakes up others holds `ptable.lock`, and has not called `sleep`. -/
theorem Machine.Dozing.asleep_of_wakeup (dozing : m.Dozing p chan lk later)
    (ordered : m.Ordered phase) (code : m.code c = .wakeup1 chan :: k)
    (again : Machine.Reacquired lk later) :
    (m.proc p).state = .SLEEPING ∧ (m.proc p).chan = chan := by
  cases dozing with
  | entering k' at_ quiet | handing k' at_ quiet => exact absurd again quiet
  | handed k' at_ =>
      rcases at_.knows.1 with ⟨c', here, held⟩
      have locked : phase c = .locked := ordered.locked_of_stmt code (by simp)
      have mine : m.held .ptable = some c := (ordered.lock c).mpr (by rw [locked]; rfl)
      rw [held] at mine
      cases mine
      have tracked := at_.tracked
      rw [← here.2.1, code] at tracked
      rcases tracked.head with ⟨_, may, -⟩
      simp [track] at may
  | asleep state chan => exact ⟨state, chan⟩

/-- `sleep` returns with the lock. -/
theorem Machine.Courses.slept (courses : m.Courses) (ordered : m.Ordered phase)
    (here : m.Executes c p (.slept lk :: k)) : m.held lk = some c := by
  rcases courses p _ (Or.inr ⟨c, here⟩) with ⟨stage, at_⟩
  have holds (keeps : m.Keeps p (.slept lk :: k) lk) : m.held lk = some c := by
    rcases keeps with ⟨c', there, held⟩
    rwa [ordered.one c' c p there.1 here.1] at held
  rcases at_.tracked.head with ⟨stage', may, -⟩
  cases stage with
  | woken lk' =>
      simp only [track, reduceCtorEq, false_and, if_false, Stmt.slept.injEq] at may
      split at may <;> cases may
      next same =>
        rcases same with ⟨rfl, rfl⟩
        exact holds (at_.knows rfl)
  | resumed lk' =>
      have same : lk = lk' := by
        cases lk' <;> simp only [track, Stmt.slept.injEq] at may <;> split at may <;>
          first | assumption | cases may
      subst same
      exact holds at_.knows
  | dead =>
      rcases at_.knows with ⟨_, _, never⟩
      cases never
  | _ => simp at may

/-- A `wakeup` after the lock has been acquired again finds the caller of `sleep`. -/
theorem Reachable.wakes (reachable : Reachable m) (pending : m.Pending n chan lk later)
    (again : Machine.Reacquired lk later) {a : Action slots}
    (code : m.code c = .wakeup1 chan :: k) (step : exec c a m = some m') :
    ∃ p, m.pid p = n ∧ (m.proc p).state = .SLEEPING ∧ (m'.proc p).state = .RUNNABLE := by
  rcases reachable.scheduled with ⟨phase, ordered⟩
  rcases reachable.heeds n chan lk later pending with ⟨p, pid, dozing⟩
  rcases dozing.asleep_of_wakeup ordered code again with ⟨state, same⟩
  refine ⟨p, pid, state, ?_⟩
  rw [exec_wakeup1 step code, Table.wakeup1_apply]
  exact if_pos ⟨state, same⟩

theorem Reachable.slept (reachable : Reachable m) (here : m.Executes c p (.slept lk :: k)) :
    m.held lk = some c := by
  rcases reachable.scheduled with ⟨phase, ordered⟩
  exact reachable.courses.slept ordered here

/--
A process that has called `sleep` is woken up by every `wakeup` on its channel that is
called after somebody has acquired the lock again, by whatever processor and in whatever
order, unless it has been woken up before; and `sleep` returns holding the lock.
-/
theorem wakeup_not_lost (reachable : Reachable m) :
    (∀ n chan lk later, m.Pending n chan lk later → Machine.Reacquired lk later →
      ∀ c a k m', m.code c = .wakeup1 chan :: k → exec c a m = some m' →
        ∃ p, m.pid p = n ∧ (m.proc p).state = .SLEEPING ∧ (m'.proc p).state = .RUNNABLE) ∧
      ∀ c p lk k, m.Executes c p (.slept lk :: k) → m.held lk = some c :=
  ⟨fun _ _ _ _ pending again _ _ _ _ code step => reachable.wakes pending again code step,
    fun _ _ _ _ here => reachable.slept here⟩

/-- The first process sleeps, and the second wakes it up. -/
theorem wakeup_not_lost_second :
    ∃ m : Machine 64 4, Reachable m ∧ ∃ m', exec 1 .go m = some m' ∧
      ∃ p, m.pid p = 1 ∧ (m.proc p).state = .SLEEPING ∧ (m'.proc p).state = .RUNNABLE := by
  have ends : ((main 64 4 1 fun i => i.val + 2).bind
      (execAll (List.replicate 6 (0, .go) ++
        [(0, .call (.acquire 2)), (0, .go), (0, .call (.sleep (some (.object 7)) 2))] ++
        List.replicate 7 (0, .go) ++ List.replicate 6 (1, .go) ++
        [(1, .trap .other), (1, .call (.acquire 2)), (1, .go),
          (1, .call (.wakeup (some (.object 7)))), (1, .go)]))).any
        fun m => (exec 1 .go m).isSome ∧
          m.code 1 = [.wakeup1 (some (.object 7)), .release .ptable, .kernel, .user] ∧
          m.events = [.acquired 2 .ptable, .acquired 2 (.spin 2), .acquired 1 .ptable,
            .sleep 1 (some (.object 7)) (.spin 2), .acquired 1 (.spin 2)] := by
    decide
  rcases reachable_run ends with ⟨m, reachable, tested⟩
  simp only [decide_eq_true_eq] at tested
  rcases tested with ⟨goes, code, events⟩
  rcases Option.isSome_iff_exists.mp goes with ⟨m', step⟩
  exact ⟨m, reachable, m', step,
    (wakeup_not_lost reachable).1 1 (some (.object 7)) (.spin 2)
      [.acquired 2 .ptable, .acquired 2 (.spin 2), .acquired 1 .ptable]
      ⟨⟨[.acquired 1 (.spin 2)], events⟩, by simp⟩ ⟨2, by simp⟩ 1 .go _ m' code step⟩

end PiKernel.Ptable
