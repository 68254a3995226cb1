import PiKernel.Ptable.Scheduling

/-!
# What a process still has to execute

The continuation of a process is the code of its processor or its saved one.  A step gives
at most one process another continuation, and `Next` says which.
-/

namespace PiKernel.Ptable

open PiKernel.Conc
open PiKernel.Trap (ProcState)

variable
    {slots cpus : Nat}
    {m m' : Machine slots cpus}
    {phase : Fin cpus → Phase slots}
    {c : Fin cpus}
    {k rest : Code slots}

/-- The code of `scheduler` where `c->proc` is set. -/
def Stmt.ofScheduler : Stmt slots → Bool
  | .swtch _ | .clearProc => true
  | _ => false

namespace Machine

/-- The processor executes the code of the process. -/
def Executes (m : Machine slots cpus) (c : Fin cpus) (p : Fin slots) (k : Code slots) : Prop :=
  m.current c = some p ∧ m.code c = k ∧ ∀ stmt ∈ k.head?, stmt.ofScheduler = false

/-- What the process still has to execute. -/
def Continues (m : Machine slots cpus) (p : Fin slots) (k : Code slots) : Prop :=
  m.context p = some k ∨ ∃ c, m.Executes c p k

end Machine

/-- The continuations after a statement of a process. -/
inductive Next (m : Machine slots cpus) (me : Fin slots) :
    Stmt slots → Code slots → Code slots → Prop where
  | tail (stmt : Stmt slots) (checked : stmt = .checkInit → some me ≠ m.initproc)
      (rest : Code slots) : Next m me stmt rest rest
  | panic (stmt : Stmt slots) (message : String) (rest : Code slots) :
      Next m me stmt rest (.panic message :: stmt :: rest)
  | trap (entry : Entry) (allowed : (m.program me).allows entry) (rest : Code slots) :
      Next m me .user rest (entry.code ++ .user :: rest)
  | call (function : Call slots) (rest : Code slots)
      (owner : ∀ l, function = .releasesleep l → m.pid me ∈ m.between l) :
      Next m me .kernel rest (function.code ++ .kernel :: rest)
  | sleepInWait (childless : m.proc.zombie me = none) (rest : Code slots) :
      Next m me .wait rest (Code.sleep (some (.proc me)) .ptable ++ .wait :: rest)
  | waitEnds (rest : Code slots) : Next m me .wait rest (.release .ptable :: rest)
  | allocFails (rest : Code slots) : Next m me .proc_alloc rest (.release .ptable :: rest)
  | noStack (rest : Code slots) :
      Next m me .proc_alloc rest
        (.release .ptable :: .panic "proc_alloc: cannot alloc kstack.\n" :: rest)
  | allocated (p : Fin slots) (unused : (m.proc p).state = .UNUSED) (rest : Code slots) :
      Next m me .proc_alloc rest (.release .ptable :: .copyuvm p :: rest)
  | copied (p : Fin slots) (rest : Code slots) :
      Next m me (.copyuvm p) rest
        (.setParent p :: .setChildRunnable p :: .returnPid p :: rest)
  | first (rest : Code slots) : Next m me .forkret rest (Code.firstProcess ++ rest)
  | sleepOnLock (l : Nat) (locked : (m.sleeplock l).locked) (rest : Code slots) :
      Next m me (.acquiresleep l) rest
        (Code.sleep (some (.sleeplock l)) (.inner l) ++ .acquiresleep l :: rest)
  | lockTaken (l : Nat) (rest : Code slots) :
      Next m me (.acquiresleep l) rest (.release (.inner l) :: rest)

/-- A statement of a process leaves its processor with one of these. -/
theorem runProc_next {a : Action slots} {me : Fin slots} {stmt : Stmt slots}
    (step : Stmt.runProc c rest m a me stmt = some m') :
    ∃ k, Next m me stmt rest k ∧ m'.code = Function.update m.code c k ∧
      m'.current = m.current ∧ m'.scheduler = m.scheduler := by
  cases stmt with
  | user =>
      simp only [Stmt.runProc] at step
      split at step
      · next entry =>
          split at step
          · next allowed =>
              cases step
              exact ⟨_, .trap entry allowed rest, rfl, rfl, rfl⟩
          · cases step
      · cases step
  | kernel =>
      simp only [Stmt.runProc] at step
      split at step
      · cases step
        exact ⟨_, .tail _ (by simp) _, rfl, rfl, rfl⟩
      · next function =>
          unfold Stmt.runCall at step
          split at step
          · next l =>
              split at step
              · next owner =>
                  cases step
                  refine ⟨_, .call (.releasesleep l) rest ?_, rfl, rfl, rfl⟩
                  intro l' same
                  cases same
                  exact owner
              · cases step
          · next other =>
              cases step
              refine ⟨_, .call function rest ?_, rfl, rfl, rfl⟩
              intro l same
              exact absurd same (other l)
      · cases step
  | sleep chan lk =>
      simp only [Stmt.runProc] at step
      split at step <;> cases step
      · exact ⟨_, .tail _ (by simp) _, rfl, rfl, rfl⟩
      · exact ⟨_, .panic _ _ _, rfl, rfl, rfl⟩
  | checkInit =>
      simp only [Stmt.runProc] at step
      split at step <;> cases step
      · exact ⟨_, .panic _ _ _, rfl, rfl, rfl⟩
      · next other => exact ⟨_, .tail _ (fun _ => other) _, rfl, rfl, rfl⟩
  | wait =>
      cases step
      unfold Stmt.runWait
      split
      · exact ⟨_, .waitEnds _, rfl, rfl, rfl⟩
      · next childless =>
          split
          · exact ⟨_, .waitEnds _, rfl, rfl, rfl⟩
          · exact ⟨_, .sleepInWait childless _, rfl, rfl, rfl⟩
  | proc_alloc =>
      simp only [Stmt.runProc, Stmt.runAlloc] at step
      split at step
      · cases step
        exact ⟨_, .allocFails _, rfl, rfl, rfl⟩
      · next p found =>
          split at step
          · cases step
            exact ⟨_, .noStack _, rfl, rfl, rfl⟩
          · split at step <;> cases step
            exact ⟨_, .allocated p (Table.unused_state found) _, rfl, rfl, rfl⟩
          · cases step
  | copyuvm p =>
      simp only [Stmt.runProc, Stmt.runCopyuvm] at step
      split at step <;> cases step
      · exact ⟨_, .copied p _, rfl, rfl, rfl⟩
      · exact ⟨_, .tail _ (by simp) _, rfl, rfl, rfl⟩
  | forkret =>
      simp only [Stmt.runProc] at step
      split at step <;> cases step
      · exact ⟨_, .first _, rfl, rfl, rfl⟩
      · exact ⟨_, .tail _ (by simp) _, rfl, rfl, rfl⟩
  | acquiresleep l =>
      cases step
      unfold Stmt.runAcquiresleep
      split
      · next locked => exact ⟨_, .sleepOnLock l locked _, rfl, rfl, rfl⟩
      · exact ⟨_, .lockTaken l _, rfl, rfl, rfl⟩
  | setSleeping _ | setRunnable | clearChan | slept _ | wakeup1 _ | exit | setParent _
  | setChildRunnable _ | returnPid _ | unlock _ | drop_priority | raise_priority
  | set_cpus_allowed _ =>
      cases step
      exact ⟨_, .tail _ (by simp) _, rfl, rfl, rfl⟩
  | _ => cases step

theorem update_none {t : Fin slots → Option (Code slots)} {p q : Fin slots}
    (saved : Function.update t q none p = some k) : t p = some k := by
  by_cases same : p = q
  · subst same
    rw [Function.update_self] at saved
    cases saved
  · rwa [Function.update_of_ne same] at saved

/-- The saved continuations after a statement of a process. -/
theorem runProc_context {a : Action slots} {me : Fin slots} {stmt : Stmt slots}
    (step : Stmt.runProc c rest m a me stmt = some m') {p : Fin slots}
    (saved : m'.context p = some k) :
    m.context p = some k ∨
      k = Code.forkret ∧ (m.proc p).state = .UNUSED ∧ (m'.proc p).state = .EMBRYO ∧
        stmt = .proc_alloc := by
  cases stmt with
  | user =>
      simp only [Stmt.runProc] at step
      split at step
      · split at step <;> cases step
        exact Or.inl saved
      · cases step
  | kernel =>
      simp only [Stmt.runProc, Stmt.runCall] at step
      split at step
      · cases step
        exact Or.inl saved
      · split at step
        · split at step <;> cases step
          exact Or.inl saved
        · cases step
          exact Or.inl saved
      · cases step
  | sleep chan lk | checkInit | forkret =>
      simp only [Stmt.runProc] at step
      split at step <;> cases step <;> exact Or.inl saved
  | wait =>
      cases step
      unfold Stmt.runWait at saved
      split at saved
      · exact Or.inl (update_none saved)
      · split at saved <;> exact Or.inl saved
  | proc_alloc =>
      simp only [Stmt.runProc, Stmt.runAlloc] at step
      split at step
      · cases step
        exact Or.inl saved
      · next q found =>
          split at step
          · cases step
            exact Or.inl saved
          · split at step <;> cases step
            change Function.update m.context q (some Code.forkret) p = some k at saved
            by_cases same : p = q
            · subst same
              rw [Function.update_self] at saved
              cases saved
              exact Or.inr ⟨rfl, Table.unused_state found, Machine.Ordered.alloc_state p _ _, rfl⟩
            · rw [Function.update_of_ne same] at saved
              exact Or.inl saved
          · cases step
  | copyuvm q =>
      simp only [Stmt.runProc, Stmt.runCopyuvm] at step
      split at step <;> cases step
      · exact Or.inl saved
      · exact Or.inl (update_none saved)
  | acquiresleep l =>
      cases step
      unfold Stmt.runAcquiresleep at saved
      split at saved <;> exact Or.inl saved
  | setSleeping _ | setRunnable | clearChan | slept _ | wakeup1 _ | exit | setParent _
  | setChildRunnable _ | returnPid _ | unlock _ | drop_priority | raise_priority
  | set_cpus_allowed _ =>
      cases step
      exact Or.inl saved
  | _ => cases step

namespace Machine

/-- Another processor goes on as before. -/
theorem Executes.before {c' : Fin cpus} {p : Fin slots} {code : Code slots}
    (there : m'.Executes c' p k) (other : c' ≠ c)
    (code' : m'.code = Function.update m.code c code)
    (current : ∀ c', c' ≠ c → m'.current c' = m.current c') : m.Executes c' p k := by
  rcases there with ⟨here, same, head⟩
  refine ⟨?_, ?_, head⟩
  · rwa [← current c' other]
  · rwa [code', Function.update_of_ne other] at same

/-- The processor goes on with this. -/
theorem Executes.here {p : Fin slots} {code : Code slots} (there : m'.Executes c p k)
    (code' : m'.code = Function.update m.code c code) : k = code ∧ m'.current c = some p := by
  rcases there with ⟨here, same, _⟩
  rw [code', Function.update_self] at same
  exact ⟨same.symm, here⟩

theorem executes_cons {p : Fin slots} {stmt : Stmt slots} (here : m.current c = some p)
    (code : m.code c = stmt :: rest) (of : stmt.ofScheduler = false) :
    m.Executes c p (stmt :: rest) := by
  refine ⟨here, code, ?_⟩
  intro stmt' mem
  cases mem
  exact of

end Machine

/-! ## The code of the processor -/

/-- The code that `sched` and the statements of `scheduler` leave. -/
inductive Switched (m m' : Machine slots cpus) (c : Fin cpus) : Code slots → Prop where
  /-- `sched` has switched to `scheduler`, if anything is left of it. -/
  | empty : Switched m m' c []
  | back (k : Code slots) : Switched m m' c (.clearProc :: k)
  | chosen (p : Fin slots) (k : Code slots) : Switched m m' c (.swtch p :: k)
  | scheduler (k : Code slots) (idle : m'.current c = none) :
      Switched m m' c (Code.scheduler ++ k)
  | idle (k : Code slots) (follows : Disciplined .choosing k) (idle : m'.current c = none) :
      Switched m m' c k
  | resumed (p : Fin slots) (k rest : Code slots) (code : m.code c = .swtch p :: rest)
      (current : m.current c = some p) (current' : m'.current c = some p)
      (saved : m.context p = some k) (follows : Disciplined .locked k) : Switched m m' c k

/-- What the processor goes on with after a statement. -/
structure Advance (m m' : Machine slots cpus) (c : Fin cpus) (stmt : Stmt slots)
    (rest k : Code slots) : Prop where
  current : m'.current = m.current
  of : stmt.ofScheduler = false
  stays : stmt ≠ .sched
  calm : ∀ message, stmt ≠ .panic message
  next : ∀ me, m.current c = some me → Next m me stmt rest k
  idle : m.current c = none → k = rest ∨ ∃ message, k = .panic message :: stmt :: rest

namespace Machine.Ordered

/-- The processor runs `scheduler`. -/
theorem idle_of_stmt (ordered : m.Ordered phase) {stmt : Stmt slots}
    (code : m.code c = stmt :: rest) (of : stmt = .scheduler ∨ stmt = .pick) :
    m.current c = none := by
  have calm (message : String) : stmt ≠ .panic message := by
    rcases of with rfl | rfl <;> exact fun never => by cases never
  rcases ordered.next code calm with ⟨alive, ph, may, _⟩
  apply (ordered.scheduler c).mpr
  rcases of with rfl | rfl <;> cases at_ : phase c <;> rw [at_] at may <;>
    first | rfl | exact absurd at_ alive | cases may

/-- After the statements of `scheduler` the processor searches the table. -/
theorem choosing_of_stmt (ordered : m.Ordered phase) {stmt : Stmt slots}
    (code : m.code c = stmt :: rest) (of : stmt = .pick ∨ stmt = .clearProc) :
    Disciplined .choosing rest := by
  have calm (message : String) : stmt ≠ .panic message := by
    rcases of with rfl | rfl <;> exact fun never => by cases never
  rcases ordered.next code calm with ⟨alive, ph, may, follows⟩
  have choosing : ph = .choosing := by
    rcases of with rfl | rfl <;> cases at_ : phase c <;> rw [at_] at may <;>
      first | exact (Option.some.inj may).symm | exact absurd at_ alive | cases may
  rwa [choosing] at follows

end Machine.Ordered

/-- Another statement than those that switch. -/
theorem Advance.spin (stmt : Stmt slots) (of : stmt.ofScheduler = false)
    (stays : stmt ≠ .sched) (calm : ∀ message, stmt ≠ .panic message)
    (current : m'.current = m.current) (check : stmt ≠ .checkInit)
    (goes : k = rest ∨ ∃ message, k = .panic message :: stmt :: rest) :
    Advance m m' c stmt rest k where
  current := current
  of := of
  stays := stays
  calm := calm
  next me _ := by
    rcases goes with rfl | ⟨message, rfl⟩
    · exact .tail _ (fun same => absurd same check) _
    · exact .panic _ _ _
  idle _ := goes

/-- What the processor goes on with. -/
theorem exec_code {a : Action slots} (step : exec c a m = some m') (ordered : m.Ordered phase) :
    ∃ stmt rest k, m.code c = stmt :: rest ∧ m'.code = Function.update m.code c k ∧
      (∀ c', c' ≠ c → m'.current c' = m.current c') ∧
        (Advance m m' c stmt rest k ∨ Switched m m' c k) := by
  unfold exec at step
  split at step
  · cases step
  · cases step
  · next lk rest code =>
      unfold Stmt.runAcquire at step
      split at step
      · cases step
        exact ⟨_, _, _, code, rfl, fun _ _ => rfl, Or.inl
          (.spin _ rfl (by simp) (by simp) rfl (by simp) (Or.inr ⟨_, rfl⟩))⟩
      · split at step <;> cases step
        exact ⟨_, _, _, code, rfl, fun _ _ => rfl, Or.inl
          (.spin _ rfl (by simp) (by simp) rfl (by simp) (Or.inl rfl))⟩
  · next lk rest code =>
      unfold Stmt.runRelease at step
      split at step <;> cases step
      · exact ⟨_, _, _, code, rfl, fun _ _ => rfl, Or.inl
          (.spin _ rfl (by simp) (by simp) rfl (by simp) (Or.inl rfl))⟩
      · exact ⟨_, _, _, code, rfl, fun _ _ => rfl, Or.inl
          (.spin _ rfl (by simp) (by simp) rfl (by simp) (Or.inr ⟨_, rfl⟩))⟩
  · next rest code =>
      rcases ordered.sched_ready code with
        ⟨_, me, code', current, held, stopped, scheduler, follows⟩
      unfold Stmt.runSched at step
      rw [current] at step
      simp only [held, stopped, scheduler, ne_eq, not_true_eq_false, if_false,
        Option.map_some, Option.some.injEq] at step
      subst step
      refine ⟨_, _, code', code, rfl, fun _ _ => rfl, Or.inr ?_⟩
      cases code' with
      | nil => exact .empty
      | cons stmt code' =>
          rcases follows.head with ⟨ph, may, _⟩
          simp only [permitted] at may
          split at may
          · next clear =>
              rw [clear]
              exact .back _
          · cases may
  · next rest code =>
      cases step
      exact ⟨_, _, _, code, rfl, fun _ _ => rfl,
        Or.inr (.scheduler _ (ordered.idle_of_stmt code (Or.inl rfl)))⟩
  · next rest code =>
      have idle := ordered.idle_of_stmt code (Or.inr rfl)
      have follows := ordered.choosing_of_stmt code (Or.inl rfl)
      unfold Stmt.runPick at step
      split at step <;> cases step
      · exact ⟨_, _, _, code, rfl, fun _ _ => rfl, Or.inr (.idle _ follows idle)⟩
      · exact ⟨_, _, _, code, rfl, fun _ other => Function.update_of_ne other _ _,
          Or.inr (.chosen _ _)⟩
  · next q rest code =>
      have chosen := (ordered.runSwtch code step).1
      have role : (phase c).role = .chosen q := by
        rw [chosen]
        rfl
      have current := ordered.chosen c q role
      rcases ordered.context q (Or.inr ⟨c, role⟩) with ⟨k, saved, follows⟩
      unfold Stmt.runSwtch at step
      rw [saved] at step
      cases step
      exact ⟨_, _, _, code, rfl, fun _ _ => rfl,
        Or.inr (.resumed q k rest code current current saved follows)⟩
  · next rest code =>
      have follows := ordered.choosing_of_stmt code (Or.inr rfl)
      cases step
      exact ⟨_, _, _, code, rfl, fun _ other => Function.update_of_ne other _ _,
        Or.inr (.idle _ follows
          (Function.update_self (β := fun _ => Option (Fin slots)) c none m.current))⟩
  · next stmt rest _ _ _ _ _ _ _ _ code =>
      rcases Option.bind_eq_some_iff.mp step with ⟨me, here, step⟩
      rcases runProc_next step with ⟨k, next, after, current, _⟩
      refine ⟨stmt, rest, k, code, after, fun _ _ => by rw [current], Or.inl ?_⟩
      constructor
      · exact current
      · cases stmt <;> first | rfl | cases step
      · rintro rfl
        cases step
      · rintro message rfl
        cases step
      · intro me' here'
        rw [here] at here'
        cases here'
        exact next
      · intro never
        rw [here] at never
        cases never

/-- What a processor executes after a step. -/
theorem exec_executes {a : Action slots} (step : exec c a m = some m')
    (ordered : m.Ordered phase) {c' : Fin cpus} {p : Fin slots} (there : m'.Executes c' p k) :
    c' ≠ c ∧ m.Executes c' p k ∨
      c' = c ∧
        (k = [] ∨
          (∃ rest, m.code c = .swtch p :: rest ∧ m.context p = some k) ∨
            ∃ stmt rest, m.Executes c p (stmt :: rest) ∧ stmt ≠ .sched ∧ Next m p stmt rest k) := by
  rcases exec_code step ordered with ⟨stmt, rest, code', code, after, current, how⟩
  by_cases same : c' = c
  · right
    subst same
    rcases there.here after with ⟨rfl, here⟩
    refine ⟨rfl, ?_⟩
    rcases how with advance | switched
    · rw [advance.current] at here
      exact Or.inr (Or.inr ⟨stmt, rest, Machine.executes_cons here code advance.of,
        advance.stays, advance.next p here⟩)
    · cases switched with
      | empty => exact Or.inl rfl
      | back k | chosen q k =>
          have never := there.2.2 _ rfl
          cases never
      | scheduler k idle | idle k _ idle =>
          rw [idle] at here
          cases here
      | resumed q k rest code _ current' saved _ =>
          rw [current'] at here
          cases here
          exact Or.inr (Or.inl ⟨rest, code, saved⟩)
  · exact Or.inl ⟨same, there.before same after current⟩

/-- The saved continuations after a step. -/
theorem exec_context {a : Action slots} (step : exec c a m = some m')
    (ordered : m.Ordered phase) {p : Fin slots} (saved : m'.context p = some k) :
    m.context p = some k ∧ (∀ rest, m.code c ≠ .swtch p :: rest) ∨
      m.Executes c p (.sched :: k) ∨
        k = Code.forkret ∧ (m.proc p).state = .UNUSED ∧ (m'.proc p).state = .EMBRYO ∧
          ∃ me rest, m.Executes c me (.proc_alloc :: rest) := by
  have other {stmt : Stmt slots} {rest : Code slots} (code : m.code c = stmt :: rest)
      (of : ∀ q, stmt ≠ .swtch q) (same : m'.context = m.context) :
      m.context p = some k ∧ ∀ rest, m.code c ≠ .swtch p :: rest := by
    rw [same] at saved
    refine ⟨saved, ?_⟩
    intro rest' code'
    rw [code] at code'
    exact of p (List.cons.inj code').1
  unfold exec at step
  split at step
  · cases step
  · cases step
  · next lk rest code =>
      unfold Stmt.runAcquire at step
      split at step
      · cases step
        exact Or.inl (other code (by simp) rfl)
      · split at step <;> cases step
        exact Or.inl (other code (by simp) rfl)
  · next lk rest code =>
      unfold Stmt.runRelease at step
      split at step <;> cases step <;> exact Or.inl (other code (by simp) rfl)
  · next rest code =>
      rcases ordered.sched_ready code with ⟨_, me, code', here, held, stopped, scheduler, _⟩
      unfold Stmt.runSched at step
      rw [here] at step
      simp only [held, stopped, scheduler, ne_eq, not_true_eq_false, if_false,
        Option.map_some, Option.some.injEq] at step
      subst step
      change Function.update m.context me (some rest) p = some k at saved
      by_cases same : p = me
      · subst same
        rw [Function.update_self] at saved
        cases saved
        exact Or.inr (Or.inl (Machine.executes_cons here code rfl))
      · rw [Function.update_of_ne same] at saved
        refine Or.inl ⟨saved, ?_⟩
        intro rest' never
        rw [code] at never
        cases never
  · next rest code =>
      cases step
      exact Or.inl (other code (by simp) rfl)
  · next rest code =>
      unfold Stmt.runPick at step
      split at step <;> cases step <;> exact Or.inl (other code (by simp) rfl)
  · next q rest code =>
      unfold Stmt.runSwtch at step
      rcases Option.map_eq_some_iff.mp step with ⟨code', _, rfl⟩
      refine Or.inl ⟨update_none saved, ?_⟩
      intro rest' same
      rw [code] at same
      cases same
      change Function.update m.context p none p = some k at saved
      rw [Function.update_self] at saved
      cases saved
  · next rest code =>
      cases step
      exact Or.inl (other code (by simp) rfl)
  · next stmt rest _ _ _ _ _ _ notSwtch _ code =>
      rcases Option.bind_eq_some_iff.mp step with ⟨me, here, step⟩
      rcases runProc_context step saved with same | ⟨new, unused, embryo, rfl⟩
      · refine Or.inl ⟨same, ?_⟩
        intro rest' never
        rw [code] at never
        cases never
        exact notSwtch _ rfl
      · exact Or.inr (Or.inr ⟨new, unused, embryo, me, rest,
          Machine.executes_cons here code rfl⟩)

/-- The continuations of a process after a step. -/
theorem exec_continues {a : Action slots} (step : exec c a m = some m')
    (ordered : m.Ordered phase) {p : Fin slots} (there : m'.Continues p k) :
    m.Continues p k ∨ k = [] ∨
      (∃ stmt rest, m.Executes c p (stmt :: rest) ∧ Next m p stmt rest k) ∨
      k = Code.forkret ∧ (m.proc p).state = .UNUSED ∧
        ∃ me rest, m.Executes c me (.proc_alloc :: rest) := by
  rcases there with saved | ⟨c', there⟩
  · rcases exec_context step ordered saved with ⟨same, _⟩ | left | ⟨new, unused, _, alloc⟩
    · exact Or.inl (Or.inl same)
    · exact Or.inr (Or.inr (Or.inl ⟨_, _, left, .tail _ (by simp) _⟩))
    · exact Or.inr (Or.inr (Or.inr ⟨new, unused, alloc⟩))
  · rcases exec_executes step ordered there with
      ⟨_, before⟩ | ⟨_, empty | ⟨_, _, saved⟩ | ⟨stmt, rest, here, _, next⟩⟩
    · exact Or.inl (Or.inr ⟨c', before⟩)
    · exact Or.inr (Or.inl empty)
    · exact Or.inl (Or.inl saved)
    · exact Or.inr (Or.inr (Or.inl ⟨stmt, rest, here, next⟩))

end PiKernel.Ptable
