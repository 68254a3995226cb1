import PiKernel.Ptable.Kin

/-!
# What a step does to locks and channels

A spinlock is given up by the processor that holds it, a sleep-lock by the process that has
acquired it, and the channel of a process is its own.
-/

namespace PiKernel.Ptable

open PiKernel.Conc
open PiKernel.Trap (ProcState)

variable
    {slots cpus : Nat}
    {m m' : Machine slots cpus}
    {phase : Fin cpus → Phase slots}
    {c : Fin cpus}
    {k rest : Code slots}
    {p q : Fin slots}

/-! ## Spinlocks -/

/-- A statement of a process other than `acquire` and `release`. -/
theorem runProc_held {a : Action slots} {me : Fin slots} {stmt : Stmt slots}
    (step : Stmt.runProc c rest m a me stmt = some m') : m'.held = m.held := by
  cases stmt with
  | user | sleep chan lk | checkInit | forkret =>
      simp only [Stmt.runProc] at step
      repeat' split at step
      all_goals cases step
      all_goals rfl
  | kernel =>
      simp only [Stmt.runProc, Stmt.runCall] at step
      repeat' split at step
      all_goals cases step
      all_goals rfl
  | wait =>
      cases step
      unfold Stmt.runWait
      split
      · rfl
      · split <;> rfl
  | proc_alloc =>
      simp only [Stmt.runProc, Stmt.runAlloc] at step
      repeat' split at step
      all_goals cases step
      all_goals rfl
  | copyuvm q =>
      simp only [Stmt.runProc, Stmt.runCopyuvm] at step
      split at step <;> cases step <;> rfl
  | acquiresleep l =>
      cases step
      unfold Stmt.runAcquiresleep
      split <;> rfl
  | setSleeping _ | setRunnable | clearChan | slept _ | wakeup1 _ | exit | setParent _
  | setChildRunnable _ | returnPid _ | unlock _ | drop_priority | raise_priority
  | set_cpus_allowed _ =>
      cases step
      rfl
  | _ => cases step

/-- A lock is given up by its holder only, who releases it. -/
theorem exec_held {a : Action slots} (step : exec c a m = some m') {lk : Lock} {c' : Fin cpus}
    (held : m.held lk = some c') :
    m'.held lk = some c' ∨ c' = c ∧ ∃ rest, m.code c = .release lk :: rest := by
  unfold exec at step
  split at step
  · cases step
  · cases step
  · unfold Stmt.runAcquire at step
    split at step
    · cases step
      exact Or.inl held
    · split at step <;> cases step
      next lk' _ _ _ free =>
        left
        change Function.update m.held lk' (some c) lk = some c'
        rw [Function.update_of_ne, held]
        rintro rfl
        rw [free] at held
        cases held
  · next lk' rest code =>
      unfold Stmt.runRelease at step
      split at step <;> cases step
      · next mine =>
          by_cases same : lk = lk'
          · subst same
            rw [mine] at held
            cases held
            exact Or.inr ⟨rfl, rest, code⟩
          · left
            change Function.update m.held lk' none lk = some c'
            rw [Function.update_of_ne same, held]
      · exact Or.inl held
  · unfold Stmt.runSched at step
    split at step
    · cases step
    · split at step
      · cases step
        exact Or.inl held
      · split at step
        · cases step
          exact Or.inl held
        · rcases Option.map_eq_some_iff.mp step with ⟨_, _, rfl⟩
          exact Or.inl held
  · cases step
    exact Or.inl held
  · unfold Stmt.runPick at step
    split at step <;> cases step <;> exact Or.inl held
  · rcases Option.map_eq_some_iff.mp step with ⟨_, _, rfl⟩
    exact Or.inl held
  · cases step
    exact Or.inl held
  · rcases Option.bind_eq_some_iff.mp step with ⟨me, _, step⟩
    rw [runProc_held step]
    exact Or.inl held

/-- `acquire` returns with the lock. -/
theorem exec_acquired {a : Action slots} (step : exec c a m = some m') {lk : Lock}
    (code : m.code c = .acquire lk :: rest) (after : m'.code c = rest) :
    m'.held lk = some c := by
  unfold exec at step
  rw [code] at step
  simp only [Stmt.runAcquire] at step
  split at step
  · cases step
    have never := (Function.update_self c _ m.code).symm.trans after
    have length := congrArg List.length never
    simp only [List.length_cons] at length
    omega
  · split at step <;> cases step
    exact Function.update_self lk (some c) m.held

/-! ## Channels -/

/-- A process begins to sleep in `sleep` only. -/
theorem Effect.asleep (effect : Effect c m m') (state : (m'.proc q).state = .SLEEPING) :
    (m.proc q).state = .SLEEPING ∨
      ∃ chan k, m.current c = some q ∧ m.code c = .setSleeping chan :: k ∧
        (m'.proc q).chan = chan := by
  have written {p : Fin slots} {proc : Proc slots}
      (written : m'.proc = Function.update m.proc p proc) (other : proc.state ≠ .SLEEPING) :
      (m.proc q).state = .SLEEPING := by
    rw [write_state written] at state
    split at state
    · exact absurd state other
    · exact state
  cases effect with
  | quiet proc _ _ =>
      rw [(proc q).state] at state
      exact Or.inl state
  | alloc me p page k _ _ _ _ proc _ _ _ _ _ =>
      left
      by_cases same : q = p
      · subst same
        rw [proc, Machine.Ordered.alloc_state] at state
        cases state
      · rwa [proc, Machine.Ordered.alloc_other page m.nextpid same] at state
  | discard p k _ proc _ _ _ _ _ => exact Or.inl (written proc (by simp))
  | born me p k _ _ proc _ _ =>
      left
      rw [write_state proc] at state
      split at state
      · next same => rwa [same]
      · exact state
  | ready p k _ proc _ _ => exact Or.inl (written proc (by simp))
  | forked me p k _ _ proc _ _ | noChild me k _ _ _ proc _ _ =>
      rw [proc] at state
      exact Or.inl state
  | exiting me k _ _ _ _ proc _ _ =>
      rw [proc] at state
      exact Or.inl state
  | run p _ proc _ _ => exact Or.inl (written proc (by simp))
  | leave me chan after stmt k here code leaves proc _ _ =>
      by_cases same : q = me
      · subst same
        rw [proc, Function.update_self] at state
        rcases leaves with ⟨rfl, rfl⟩ | ⟨rfl, _⟩
        · exact Or.inr ⟨chan, k, here, code, by rw [proc, Function.update_self]; rfl⟩
        · cases state
      · rw [proc, Function.update_of_ne same] at state
        exact Or.inl state
  | wakeup chan k _ proc _ _ =>
      rcases wakeup1_state m.proc chan (q := q) with same | ⟨before, _⟩
      · rw [proc, same] at state
        exact Or.inl state
      · exact Or.inl before
  | exit me k _ _ proc _ _ =>
      by_cases same : q = me
      · subst same
        rw [proc, Table.exit_apply] at state
        change (if _ then _ else _) = _ at state
        rw [if_pos rfl] at state
        cases state
      · rcases exit_state m.proc me m.initproc same with kept | ⟨before, _⟩
        · rw [proc, kept] at state
          exact Or.inl state
        · exact Or.inl before
  | reap me p k _ _ _ proc _ _ _ _ _ =>
      by_cases same : q = p
      · subst same
        rw [proc, reap_here] at state
        cases state
      · rw [proc, reap_other m.proc same] at state
        exact Or.inl state

theorem write_chan {t : Table slots} {p : Fin slots} {proc : Proc slots}
    (same : proc.chan = (t p).chan) : (Function.update t p proc q).chan = (t q).chan := by
  by_cases here : q = p
  · subst here
    rw [Function.update_self, same]
  · rw [Function.update_of_ne here]

/-- The channel of a process is written in `sleep` only. -/
theorem runProc_chan {a : Action slots} {me : Fin slots} {stmt : Stmt slots}
    (step : Stmt.runProc c rest m a me stmt = some m') :
    (m'.proc q).chan = (m.proc q).chan ∨
      q = me ∧ (stmt = .clearChan ∨ ∃ chan, stmt = .setSleeping chan) := by
  cases stmt with
  | user | sleep chan lk | checkInit | forkret =>
      simp only [Stmt.runProc] at step
      repeat' split at step
      all_goals cases step
      all_goals exact Or.inl rfl
  | kernel =>
      simp only [Stmt.runProc, Stmt.runCall] at step
      repeat' split at step
      all_goals cases step
      all_goals exact Or.inl rfl
  | wait =>
      cases step
      left
      unfold Stmt.runWait
      split
      · exact write_chan rfl
      · split <;> rfl
  | proc_alloc =>
      simp only [Stmt.runProc, Stmt.runAlloc] at step
      repeat' split at step
      all_goals cases step
      all_goals first | exact Or.inl rfl | exact Or.inl (write_chan rfl)
  | copyuvm p =>
      simp only [Stmt.runProc, Stmt.runCopyuvm] at step
      split at step <;> cases step
      · exact Or.inl rfl
      · exact Or.inl (write_chan rfl)
  | acquiresleep l =>
      cases step
      left
      unfold Stmt.runAcquiresleep
      split <;> rfl
  | setSleeping chan | clearChan =>
      cases step
      by_cases same : q = me
      · exact Or.inr ⟨same, by simp⟩
      · left
        exact congrArg Proc.chan (Function.update_of_ne same _ m.proc)
  | wakeup1 chan =>
      cases step
      left
      change (m.proc.wakeup1 chan q).chan = _
      rw [Table.wakeup1_apply]
  | exit =>
      cases step
      left
      change (m.proc.exit me m.initproc q).chan = _
      rw [Table.exit_apply]
  | setRunnable | setParent p | setChildRunnable p | drop_priority | raise_priority
  | set_cpus_allowed mask =>
      cases step
      exact Or.inl (write_chan rfl)
  | slept lk | returnPid p | unlock l =>
      cases step
      exact Or.inl rfl
  | _ => cases step

/-! ## Statements that switch -/

/-- A statement of a process, or one that concerns spinlocks and processors only. -/
theorem exec_local {a : Action slots} (step : exec c a m = some m') :
    (∃ me stmt rest, m.current c = some me ∧ m.code c = stmt :: rest ∧
        Stmt.runProc c rest m a me stmt = some m') ∨
      m'.sleeplock = m.sleeplock ∧ m'.between = m.between ∧
        ∀ q, (m'.proc q).chan = (m.proc q).chan := by
  unfold exec at step
  split at step
  · cases step
  · cases step
  · right
    unfold Stmt.runAcquire at step
    split at step
    · cases step
      exact ⟨rfl, rfl, fun _ => rfl⟩
    · split at step <;> cases step
      exact ⟨rfl, rfl, fun _ => rfl⟩
  · right
    unfold Stmt.runRelease at step
    split at step <;> cases step <;> exact ⟨rfl, rfl, fun _ => rfl⟩
  · right
    unfold Stmt.runSched at step
    split at step
    · cases step
    · split at step
      · cases step
        exact ⟨rfl, rfl, fun _ => rfl⟩
      · split at step
        · cases step
          exact ⟨rfl, rfl, fun _ => rfl⟩
        · rcases Option.map_eq_some_iff.mp step with ⟨_, _, rfl⟩
          exact ⟨rfl, rfl, fun _ => rfl⟩
  · cases step
    exact Or.inr ⟨rfl, rfl, fun _ => rfl⟩
  · right
    unfold Stmt.runPick at step
    split at step <;> cases step
    · exact ⟨rfl, rfl, fun _ => rfl⟩
    · exact ⟨rfl, rfl, fun _ => write_chan rfl⟩
  · rcases Option.map_eq_some_iff.mp step with ⟨_, _, rfl⟩
    exact Or.inr ⟨rfl, rfl, fun _ => rfl⟩
  · cases step
    exact Or.inr ⟨rfl, rfl, fun _ => rfl⟩
  · next stmt rest _ _ _ _ _ _ _ _ code =>
      rcases Option.bind_eq_some_iff.mp step with ⟨me, here, step⟩
      exact Or.inl ⟨me, stmt, rest, here, code, step⟩

theorem exec_chan {a : Action slots} (step : exec c a m = some m') :
    (m'.proc q).chan = (m.proc q).chan ∨
      m.current c = some q ∧ ∃ stmt rest, m.code c = stmt :: rest ∧
        (stmt = .clearChan ∨ ∃ chan, stmt = .setSleeping chan) := by
  rcases exec_local step with ⟨me, stmt, rest, here, code, step⟩ | ⟨_, _, same⟩
  · rcases runProc_chan (q := q) step with same | ⟨rfl, writes⟩
    · exact Or.inl same
    · exact Or.inr ⟨here, stmt, rest, code, writes⟩
  · exact Or.inl (same q)

/-! ## Sleep-locks -/

/-- What a step does to the sleep-locks. -/
inductive OfLock (c : Fin cpus) (m m' : Machine slots cpus) : Prop where
  | same (sleeplock : m'.sleeplock = m.sleeplock) (between : m'.between = m.between)
  | taken (l : Nat) (me : Fin slots) (k : Code slots) (here : m.current c = some me)
      (code : m.code c = .acquiresleep l :: k) (free : (m.sleeplock l).locked = false)
      (sleeplock : m'.sleeplock =
        Function.update m.sleeplock l { locked := true, pid := m.pid me })
      (between : m'.between = Function.update m.between l (m.pid me :: m.between l))
  | given (l : Nat) (me : Fin slots) (k : Code slots) (here : m.current c = some me)
      (code : m.code c = .unlock l :: k)
      (sleeplock : m'.sleeplock =
        Function.update m.sleeplock l { locked := false, pid := 0 })
      (between : m'.between =
        Function.update m.between l ((m.between l).erase (m.pid me)))

theorem exec_ofLock {a : Action slots} (step : exec c a m = some m') : OfLock c m m' := by
  rcases exec_local step with ⟨me, stmt, rest, here, code, step⟩ | ⟨sleeplock, between, _⟩
  · cases stmt with
    | user | sleep chan lk | checkInit | forkret =>
        simp only [Stmt.runProc] at step
        repeat' split at step
        all_goals cases step
        all_goals exact .same rfl rfl
    | kernel =>
        simp only [Stmt.runProc, Stmt.runCall] at step
        repeat' split at step
        all_goals cases step
        all_goals exact .same rfl rfl
    | wait =>
        cases step
        unfold Stmt.runWait
        split
        · exact .same rfl rfl
        · split <;> exact .same rfl rfl
    | proc_alloc =>
        simp only [Stmt.runProc, Stmt.runAlloc] at step
        repeat' split at step
        all_goals cases step
        all_goals exact .same rfl rfl
    | copyuvm p =>
        simp only [Stmt.runProc, Stmt.runCopyuvm] at step
        split at step <;> cases step <;> exact .same rfl rfl
    | acquiresleep l =>
        cases step
        unfold Stmt.runAcquiresleep
        split
        · exact .same rfl rfl
        · next free =>
            exact .taken l me rest here code (Bool.eq_false_of_not_eq_true free) rfl rfl
    | unlock l =>
        cases step
        exact .given l me rest here code rfl rfl
    | setSleeping _ | setRunnable | clearChan | slept _ | wakeup1 _ | exit | setParent _
    | setChildRunnable _ | returnPid _ | drop_priority | raise_priority
    | set_cpus_allowed _ =>
        cases step
        exact .same rfl rfl
    | _ => cases step
  · exact .same sleeplock between

/-- Only a process itself gives up a sleep-lock. -/
theorem exec_between {a : Action slots} {l n : Nat} (step : exec c a m = some m')
    (mem : n ∈ m.between l) :
    n ∈ m'.between l ∨
      ∃ me rest, m.current c = some me ∧ n = m.pid me ∧ m.code c = .unlock l :: rest := by
  cases exec_ofLock step with
  | same _ between =>
      rw [between]
      exact Or.inl mem
  | taken l' me k _ _ _ _ between =>
      left
      rw [between]
      by_cases same : l = l'
      · subst same
        rw [Function.update_self]
        exact List.mem_cons_of_mem _ mem
      · rwa [Function.update_of_ne same]
  | given l' me k here code _ between =>
      rw [between]
      by_cases same : l = l'
      · subst same
        rw [Function.update_self]
        by_cases mine : n = m.pid me
        · exact Or.inr ⟨me, k, here, mine, code⟩
        · exact Or.inl ((List.mem_erase_of_ne mine).mpr mem)
      · left
        rwa [Function.update_of_ne same]

theorem exec_locked {a : Action slots} {l : Nat} (step : exec c a m = some m')
    (locked : (m.sleeplock l).locked) :
    (m'.sleeplock l).locked ∨
      ∃ me rest, m.current c = some me ∧ m.code c = .unlock l :: rest := by
  cases exec_ofLock step with
  | same sleeplock _ =>
      rw [sleeplock]
      exact Or.inl locked
  | taken l' me k _ _ _ sleeplock _ =>
      left
      rw [sleeplock]
      by_cases same : l = l'
      · subst same
        rw [Function.update_self]
      · rwa [Function.update_of_ne same]
  | given l' me k here code sleeplock _ =>
      by_cases same : l = l'
      · subst same
        exact Or.inr ⟨me, k, here, code⟩
      · left
        rw [sleeplock]
        rwa [Function.update_of_ne same]

end PiKernel.Ptable
