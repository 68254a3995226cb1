import PiKernel.Ptable.Effects

/-!
# Scheduling

Whenever nobody holds `ptable.lock`, the states of the processes, the `proc` fields of the
processors and the saved continuations agree; the checks on the ownership of the lock in
`release` and `sched` always succeed.
-/

namespace PiKernel.Ptable

open PiKernel.Trap (ProcState)

variable
    {slots cpus : Nat}
    {m m' : Machine slots cpus}
    {phase : Fin cpus → Phase slots}
    {c : Fin cpus}

namespace Machine

/-! ## Pids -/

/-- The pids of the slots in use. -/
structure Numbered (m : Machine slots cpus) : Prop where
  range : ∀ p, (m.proc p).state ≠ .UNUSED → 0 < m.pid p ∧ m.pid p < m.nextpid
  distinct : ∀ p q, (m.proc p).state ≠ .UNUSED → (m.proc q).state ≠ .UNUSED →
    m.pid p = m.pid q → p = q
  positive : 0 < m.nextpid

theorem Ordered.used (ordered : m.Ordered phase) {p : Fin slots}
    (here : m.current c = some p) : (m.proc p).state ≠ .UNUSED := by
  intro unused
  exact ordered.absent_of_state (Or.inl unused) c here

theorem Numbered.frame (numbered : m.Numbered)
    (pid : ∀ p, (m'.proc p).state ≠ .UNUSED → m'.pid p = m.pid p)
    (nextpid : m'.nextpid = m.nextpid)
    (used : ∀ p, (m'.proc p).state ≠ .UNUSED → (m.proc p).state ≠ .UNUSED) :
    m'.Numbered where
  range p here := by
    rw [pid p here, nextpid]
    exact numbered.range p (used p here)
  distinct p q here there equal := by
    rw [pid p here, pid q there] at equal
    exact numbered.distinct p q (used p here) (used q there) equal
  positive := by
    rw [nextpid]
    exact numbered.positive

/-- A slot that is in use is written. -/
theorem Numbered.write (numbered : m.Numbered) {p : Fin slots} {proc : Proc slots}
    (written : m'.proc = Function.update m.proc p proc)
    (pid : proc.pid = m.pid p) (nextpid : m'.nextpid = m.nextpid)
    (used : proc.state ≠ .UNUSED → (m.proc p).state ≠ .UNUSED) :
    m'.Numbered := by
  apply numbered.frame ?_ nextpid
  · intro q here
    rw [written] at here
    by_cases same : q = p
    · subst same
      rw [Function.update_self] at here
      exact used here
    · rwa [Function.update_of_ne same] at here
  · intro q _
    unfold Machine.pid
    rw [written]
    by_cases same : q = p
    · subst same
      rw [Function.update_self, pid]
      rfl
    · rw [Function.update_of_ne same]

theorem Numbered.alloc (numbered : m.Numbered) {p : Fin slots} {page : Nat}
    (proc : m'.proc = m.proc.alloc p page m.nextpid) (nextpid : m'.nextpid = m.nextpid + 1) :
    m'.Numbered := by
  have mine : m'.pid p = m.nextpid := by
    unfold Machine.pid Table.alloc at *
    rw [proc, Function.update_self]
  have kept {q : Fin slots} (other : q ≠ p) : m'.proc q = m.proc q := by
    rw [proc]
    exact Ordered.alloc_other page m.nextpid other
  have kept_pid {q : Fin slots} (other : q ≠ p) : m'.pid q = m.pid q :=
    congrArg Proc.pid (kept other)
  constructor
  · intro q here
    by_cases same : q = p
    · rw [same, mine, nextpid]
      exact ⟨numbered.positive, Nat.lt_succ_self _⟩
    · rw [kept same] at here
      rw [kept_pid same, nextpid]
      exact ⟨(numbered.range q here).1, Nat.lt_succ_of_lt (numbered.range q here).2⟩
  · intro q q' here there equal
    by_cases same : q = p
    · by_cases same' : q' = p
      · rw [same, same']
      · rw [kept same'] at there
        have below := (numbered.range q' there).2
        rw [same, mine, kept_pid same'] at equal
        omega
    · rw [kept same] at here
      by_cases same' : q' = p
      · have below := (numbered.range q here).2
        rw [same', mine, kept_pid same] at equal
        omega
      · rw [kept same'] at there
        rw [kept_pid same, kept_pid same'] at equal
        exact numbered.distinct q q' here there equal
  · rw [nextpid]
    exact Nat.succ_pos _

theorem Numbered.step (numbered : m.Numbered) (scheduled : m.Scheduled)
    (effect : Effect c m m') : m'.Numbered := by
  rcases scheduled with ⟨phase, ordered⟩
  cases effect with
  | quiet proc kept _ =>
      apply numbered.frame (fun p _ => (proc p).pid) kept.nextpid
      intro p here
      rwa [(proc p).state] at here
  | alloc me p page k _ _ _ _ proc nextpid _ _ _ _ => exact numbered.alloc proc nextpid
  | discard p k _ proc nextpid _ _ _ _ =>
      exact numbered.write proc rfl nextpid fun never => absurd rfl never
  | born me p k _ _ proc kept _ => exact numbered.write proc rfl kept.nextpid id
  | ready p k code proc kept _ =>
      apply numbered.write proc rfl kept.nextpid
      intro _
      rcases ordered.next code (by simp) with ⟨alive, ph, may, _⟩
      have before : phase c = .born p := by
        cases at_ : phase c <;> simp_all [permitted]
      have embryo := ordered.embryo c p (by rw [before]; rfl)
      rw [embryo]
      intro never
      cases never
  | forked me p k _ _ proc kept _ | noChild me k _ _ _ proc kept _ =>
      exact numbered.frame (fun p _ => by unfold Machine.pid; rw [proc]) kept.nextpid
        fun p here => by rwa [proc] at here
  | exiting me k _ _ _ _ proc kept _ =>
      exact numbered.frame (fun p _ => by unfold Machine.pid; rw [proc]) kept.nextpid
        fun p here => by rwa [proc] at here
  | run p runnable proc kept _ =>
      apply numbered.write proc rfl kept.nextpid
      intro _
      rw [runnable]
      intro never
      cases never
  | leave me chan state stmt k here _ _ proc kept _ =>
      exact numbered.write proc rfl kept.nextpid fun _ => ordered.used here
  | wakeup chan k _ proc kept _ =>
      apply numbered.frame ?_ kept.nextpid
      · intro p here unused
        rw [proc, Table.wakeup1_apply] at here
        apply here
        change (if _ then _ else _) = _
        rw [if_neg, unused]
        rw [unused]
        rintro ⟨never, _⟩
        cases never
      · intro p _
        unfold Machine.pid
        rw [proc, Table.wakeup1_apply]
  | exit me k here _ proc kept _ =>
      apply numbered.frame ?_ kept.nextpid
      · intro p used unused
        rw [proc, Table.exit_apply] at used
        by_cases same : p = me
        · subst same
          exact ordered.used here unused
        · apply used
          change (if _ then _ else if _ then _ else _) = _
          have silent : ¬ m.proc.wakes me m.initproc p := by
            simp [Table.wakes, unused]
          rw [if_neg same, if_neg silent, unused]
      · intro p _
        unfold Machine.pid
        rw [proc, Table.exit_apply]
  | reap me p k _ _ found proc nextpid _ _ _ _ =>
      have other {q : Fin slots} (here : (m'.proc q).state ≠ .UNUSED) : q ≠ p := by
        rintro rfl
        apply here
        rw [proc]
        unfold Table.reap
        rw [Function.update_self]
      have kept {q : Fin slots} (away : q ≠ p) : m'.proc q = m.proc q := by
        rw [proc]
        exact Function.update_of_ne away _ _
      apply numbered.frame ?_ nextpid
      · intro q here
        rwa [← kept (other here)]
      · intro q here
        exact congrArg Proc.pid (kept (other here))

end Machine

theorem Machine.Fresh.numbered (fresh : m.Fresh) : m.Numbered where
  range p used := by
    rcases fresh.used p with unused | new
    · exact absurd unused used
    · exact new.pid
  distinct p q used used' equal := by
    rcases fresh.used p with unused | new
    · exact absurd unused used
    · rcases fresh.used q with unused' | new'
      · exact absurd unused' used'
      · exact fresh.pids p q new.state new'.state equal
  positive := fresh.nextpid.1

theorem Reachable.numbered (reachable : Reachable m) : m.Numbered := by
  induction reachable with
  | boot page idle booted => exact (main_fresh booted).1.numbered
  | step before next ih =>
      cases next with
      | exec c a effect => exact ih.step before.scheduled (exec_effect effect)

/-! ## The guarantee -/

/-- The table, the processors and the saved continuations agree. -/
structure Machine.Consistent (m : Machine slots cpus) : Prop where
  running : ∀ p, (m.proc p).state = .RUNNING ↔ ∃! c, m.current c = some p
  saved : ∀ p, (m.proc p).state = .RUNNABLE ∨ (m.proc p).state = .SLEEPING →
    (∃ k, m.context p = some k) ∧ ∀ c, m.current c ≠ some p
  pids : ∀ p q, (m.proc p).state ≠ .UNUSED → (m.proc q).state ≠ .UNUSED →
    m.pid p = m.pid q → p = q

/-- The next statement is one of the two switches. -/
def Switches (code : Code slots) : Prop :=
  ∃ k, code = .sched :: k ∨ ∃ p, code = .swtch p :: k

/-- The processor that switches holds the lock, and no check of the lock fails. -/
structure Machine.Guarded (m : Machine slots cpus) : Prop where
  swtch : ∀ c a m', Switches (m.code c) → exec c a m = some m' →
    m.held .ptable = some c ∧ m'.held .ptable = some c
  panics : ∀ c message k, m.code c = .panic message :: k →
    message = "proc_alloc: cannot alloc kstack.\n" ∨ Blamed (m.code c)

theorem Machine.Ordered.consistent (ordered : m.Ordered phase) (numbered : m.Numbered)
    (free : m.held .ptable = none) : m.Consistent := by
  have unlocked (c : Fin cpus) : (phase c).holds = false := by
    rw [← Bool.not_eq_true]
    intro holds
    have held := (ordered.lock c).mpr holds
    rw [free] at held
    cases held
  have runs {c : Fin cpus} {p : Fin slots} (here : m.current c = some p) :
      (m.proc p).state = .RUNNING := by
    have allowed := ordered.state c p here
    have no := unlocked c
    cases at_ : phase c <;> rw [at_] at allowed no <;>
      first | exact allowed | exact allowed.elim | cases no
  constructor
  · intro p
    constructor
    · intro state
      rcases ordered.running p state with ⟨c, here⟩
      exact ⟨c, here, fun c' there => ordered.one c' c p there here⟩
    · rintro ⟨c, here, _⟩
      exact runs here
  · intro p state
    have absent (c : Fin cpus) : m.current c ≠ some p := by
      intro here
      rw [runs here] at state
      rcases state with never | never <;> cases never
    refine ⟨?_, absent⟩
    have parked : m.Parked phase p := by
      refine Or.inl ⟨?_, fun c here => absurd here (absent c)⟩
      rcases state with state | state
      · exact Or.inl state
      · exact Or.inr (Or.inl state)
    rcases ordered.context p parked with ⟨k, saved, _⟩
    exact ⟨k, saved⟩
  · exact numbered.distinct

theorem Machine.Ordered.guarded (ordered : m.Ordered phase) : m.Guarded := by
  constructor
  · rintro c a m' ⟨k, code | ⟨p, code⟩⟩ step
    · rcases ordered.sched_ready code with ⟨_, me, code', current, held, stopped, scheduler, _⟩
      unfold exec at step
      rw [code] at step
      have after := ordered.runSched code step
      exact ⟨held, (after.lock c).mpr (by rw [Function.update_self]; rfl)⟩
    · unfold exec at step
      rw [code] at step
      rcases ordered.runSwtch code step with ⟨before, after⟩
      refine ⟨(ordered.lock c).mpr (by rw [before]; rfl), ?_⟩
      exact (after.lock c).mpr (by rw [Function.update_self]; rfl)
  · intro c message k code
    by_cases dead : phase c = .dead
    · exact Or.inr (ordered.dead c dead)
    · have follows := ordered.code c
      rw [code] at follows
      rcases follows.head with ⟨ph, may, _⟩
      left
      cases at_ : phase c <;> simp_all [permitted]

/--
In every state of every run in which nobody holds `ptable.lock`, a process is `RUNNING` if
and only if it is the `proc` of exactly one processor, a process that may run is nobody's
and has a continuation, and pids differ.  In every state of every run the processor that
switches holds the lock before and after, and no check of the lock has failed.
-/
theorem scheduling (reachable : Reachable m) :
    (m.held .ptable = none → m.Consistent) ∧ m.Guarded := by
  rcases reachable.scheduled with ⟨phase, ordered⟩
  exact ⟨ordered.consistent reachable.numbered, ordered.guarded⟩

/-- The first processor takes the first process, which releases the lock. -/
theorem scheduling_first :
    ∃ m : Machine 64 4, Reachable m ∧ m.held .ptable = none ∧ m.current 0 = some 0 ∧
      m.Consistent := by
  have ends : ((main 64 4 1 fun i => i.val + 2).bind
      (execAll [(0, .go), (0, .go), (0, .go), (0, .go), (0, .go)])).any
        fun m => m.held .ptable = none ∧ m.current 0 = some 0 := by
    decide
  rcases (Option.any_eq_true _ _).mp ends with ⟨m, ends, facts⟩
  rcases Option.bind_eq_some_iff.mp ends with ⟨m₀, booted, ends⟩
  have reachable := (Reachable.boot _ _ booted).execAll _ ends
  simp only [decide_eq_true_eq] at facts
  exact ⟨m, reachable, facts.1, facts.2, (scheduling reachable).1 facts.1⟩

end PiKernel.Ptable
