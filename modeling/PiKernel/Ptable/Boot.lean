import PiKernel.Ptable.Steps

/-!
# The state after `main`

`user_init` and `user_idle_init` run before any process does: they fill slots of a table
that nobody else uses.
-/

namespace PiKernel.Ptable

open PiKernel.Conc
open PiKernel.Trap (ProcState)

variable
    {slots cpus : Nat}
    {m m' : Machine slots cpus}

/-- A process that has been created and has not run. -/
structure Machine.New (m : Machine slots cpus) (p : Fin slots) : Prop where
  state : (m.proc p).state = .RUNNABLE
  context : m.context p = some Code.forkret
  pid : 0 < m.pid p ∧ m.pid p < m.nextpid
  program : m.program p = .any ↔ m.pid p = 1
  stack : ∃ page, (m.proc p).kstack = some page ∧ m.stack page

/-- The state while `main` creates processes. -/
structure Machine.Fresh (m : Machine slots cpus) : Prop where
  code : ∀ c, m.code c = [.scheduler]
  current : ∀ c, m.current c = none
  held : ∀ lk, m.held lk = none
  sleeplock : ∀ l, m.sleeplock l = { locked := false, pid := 0 }
  between : ∀ l, m.between l = []
  events : m.events = []
  parent : ∀ p, (m.proc p).parent = none
  killed : ∀ p, (m.proc p).killed = false
  used : ∀ p, (m.proc p).state = .UNUSED ∨ m.New p
  pids : ∀ p q, (m.proc p).state = .RUNNABLE → (m.proc q).state = .RUNNABLE →
    m.pid p = m.pid q → p = q
  kstacks : ∀ p q, (m.proc p).state = .RUNNABLE → (m.proc q).state = .RUNNABLE →
    (m.proc p).kstack = (m.proc q).kstack → p = q
  nextpid : 0 < m.nextpid ∧ m.nextpid ≤ INT_MAX
  initproc : ∀ i, m.initproc = some i → (m.proc i).state = .RUNNABLE ∧ m.pid i + 1 = m.nextpid

theorem zeroed_fresh : (zeroed slots cpus).Fresh where
  code _ := rfl
  current _ := rfl
  held _ := rfl
  sleeplock _ := rfl
  between _ := rfl
  events := rfl
  parent _ := rfl
  killed _ := rfl
  used _ := Or.inl rfl
  pids _ _ state := by cases state
  kstacks _ _ state := by cases state
  nextpid := ⟨Nat.one_pos, show 1 ≤ INT_MAX by decide⟩
  initproc _ never := by cases never

namespace Machine.Fresh

theorem new (fresh : m.Fresh) {p : Fin slots} (state : (m.proc p).state = .RUNNABLE) :
    m.New p := by
  rcases fresh.used p with unused | new
  · rw [unused] at state
    cases state
  · exact new

/-- A slot has been filled, and nothing else has changed. -/
structure Created (m m' : Machine slots cpus) (p : Fin slots) (program : Program)
    (page : Nat) : Prop where
  unused : (m.proc p).state = .UNUSED
  room : m.stack page = false ∧ m.nextpid < INT_MAX
  here : m'.proc p =
    { m.proc p with
      kstack := some page
      state := .RUNNABLE
      pid := m.nextpid
      priority := 0
      cpus_allowed := BitVec.allOnes 32 }
  other : ∀ q, q ≠ p → m'.proc q = m.proc q
  rest : m' =
    { m with
      proc := m'.proc
      nextpid := m.nextpid + 1
      initproc := some p
      program := Function.update m.program p program
      context := Function.update m.context p (some Code.forkret)
      stack := Function.update m.stack page true }

theorem created_of_initProcess {program : Program} {page : Nat}
    (created : Ptable.initProcess program page m = some m') :
    ∃ p, Created m m' p program page := by
  unfold Ptable.initProcess at created
  split at created
  · cases created
  · next p found =>
      split at created
      · next room =>
          cases created
          refine ⟨p, Table.unused_state found, room, ?_, ?_, rfl⟩
          · change Function.update (m.proc.alloc p page m.nextpid) p _ p = _
            rw [Function.update_self]
            change { m.proc.alloc p page m.nextpid p with state := .RUNNABLE } = _
            unfold Table.alloc
            rw [Function.update_self]
          · intro q other
            change Function.update (m.proc.alloc p page m.nextpid) p _ q = _
            rw [Function.update_of_ne other]
            exact Machine.Ordered.alloc_other page m.nextpid other
      · cases created

/-- One more process. -/
theorem initProcess (fresh : m.Fresh) {program : Program} {page : Nat}
    (first : program = .any ↔ m.nextpid = 1)
    (created : Ptable.initProcess program page m = some m') :
    m'.Fresh ∧ m'.nextpid = m.nextpid + 1 ∧ ∃ i, m'.initproc = some i := by
  rcases created_of_initProcess created with ⟨p, unused, room, here, other, rest⟩
  have nextpid : m'.nextpid = m.nextpid + 1 := by rw [rest]
  have away {q : Fin slots} (state : (m.proc q).state = .RUNNABLE) : q ≠ p := by
    rintro rfl
    rw [unused] at state
    cases state
  have old {q : Fin slots} (away : q ≠ p) (state : (m'.proc q).state = .RUNNABLE) :
      m.New q := by
    rw [other q away] at state
    exact fresh.new state
  have pid : m'.pid p = m.nextpid := congrArg Proc.pid here
  have new : m'.New p := by
    constructor
    · rw [here]
    · rw [rest]
      exact Function.update_self _ _ _
    · rw [pid, nextpid]
      exact ⟨fresh.nextpid.1, Nat.lt_succ_self _⟩
    · rw [pid, rest]
      change Function.update m.program p program p = _ ↔ _
      rw [Function.update_self]
      exact first
    · refine ⟨page, by rw [here], ?_⟩
      rw [rest]
      exact Function.update_self _ _ _
  refine ⟨?_, nextpid, p, by rw [rest]⟩
  constructor
  · rw [rest]
    exact fresh.code
  · rw [rest]
    exact fresh.current
  · rw [rest]
    exact fresh.held
  · rw [rest]
    exact fresh.sleeplock
  · rw [rest]
    exact fresh.between
  · rw [rest]
    exact fresh.events
  · intro q
    by_cases same : q = p
    · rw [same, here]
      exact fresh.parent p
    · rw [other q same]
      exact fresh.parent q
  · intro q
    by_cases same : q = p
    · rw [same, here]
      exact fresh.killed p
    · rw [other q same]
      exact fresh.killed q
  · intro q
    by_cases same : q = p
    · rw [same]
      exact Or.inr new
    · rcases fresh.used q with state | before
      · left
        rw [other q same, state]
      · right
        have kept : m'.pid q = m.pid q := congrArg Proc.pid (other q same)
        constructor
        · rw [other q same, before.state]
        · rw [rest]
          exact (Function.update_of_ne same _ _).trans before.context
        · rw [kept, nextpid]
          exact ⟨before.pid.1, Nat.lt_succ_of_lt before.pid.2⟩
        · rw [kept, rest]
          change Function.update m.program p program q = _ ↔ _
          rw [Function.update_of_ne same]
          exact before.program
        · rcases before.stack with ⟨page', kstack, used⟩
          refine ⟨page', by rw [other q same, kstack], ?_⟩
          rw [rest]
          change Function.update m.stack page true page' = true
          by_cases double : page' = page
          · rw [double, Function.update_self]
          · rwa [Function.update_of_ne double]
  · intro q q' state state' equal
    by_cases same : q = p
    · by_cases same' : q' = p
      · rw [same, same']
      · have before := (old same' state').pid.2
        have kept : m'.pid q' = m.pid q' := congrArg Proc.pid (other q' same')
        rw [same, pid, kept] at equal
        omega
    · have kept : m'.pid q = m.pid q := congrArg Proc.pid (other q same)
      by_cases same' : q' = p
      · have before := (old same state).pid.2
        rw [same', pid, kept] at equal
        omega
      · have kept' : m'.pid q' = m.pid q' := congrArg Proc.pid (other q' same')
        rw [kept, kept'] at equal
        exact fresh.pids q q' (old same state).state (old same' state').state equal
  · intro q q' state state' equal
    have different {q : Fin slots} (same : q ≠ p) (state : (m'.proc q).state = .RUNNABLE) :
        (m'.proc q).kstack ≠ some page := by
      rcases (old same state).stack with ⟨page', kstack, used⟩
      rw [other q same, kstack]
      rintro ⟨⟩
      rw [room.1] at used
      cases used
    have mine : (m'.proc p).kstack = some page := by rw [here]
    by_cases same : q = p
    · by_cases same' : q' = p
      · rw [same, same']
      · rw [same, mine] at equal
        exact absurd equal.symm (different same' state')
    · by_cases same' : q' = p
      · rw [same', mine] at equal
        exact absurd equal (different same state)
      · rw [other q same, other q' same'] at equal
        exact fresh.kstacks q q' (old same state).state (old same' state').state equal
  · rw [nextpid]
    exact ⟨Nat.succ_pos _, room.2⟩
  · intro i initproc
    rw [rest] at initproc
    cases initproc
    rw [pid, nextpid]
    exact ⟨new.state, rfl⟩

end Machine.Fresh

theorem loop_later {n : Nat} (later : n ≠ 1) : Program.loop = .any ↔ n = 1 :=
  iff_of_false Program.noConfusion later

/-- After `main`, the last process that it has created is `initproc`. -/
theorem main_fresh {page : Nat} {idle : Fin 3 → Nat}
    (booted : main slots cpus page idle = some m) :
    m.Fresh ∧ m.nextpid = 5 ∧ ∃ i, m.initproc = some i := by
  unfold main at booted
  rcases Option.bind_eq_some_iff.mp booted with ⟨m₁, first, loop⟩
  rcases zeroed_fresh.initProcess (iff_of_true rfl rfl) first with ⟨fresh₁, next₁, _⟩
  have next₁ : m₁.nextpid = 2 := next₁
  change (user_idle_init (idle 0) m₁).bind (fun m₂ =>
    (user_idle_init (idle 1) m₂).bind fun m₃ =>
      (user_idle_init (idle 2) m₃).bind some) = some m at loop
  rcases Option.bind_eq_some_iff.mp loop with ⟨m₂, second, loop⟩
  rcases fresh₁.initProcess (loop_later (by omega)) second with ⟨fresh₂, next₂, _⟩
  rcases Option.bind_eq_some_iff.mp loop with ⟨m₃, third, loop⟩
  rcases fresh₂.initProcess (loop_later (by omega)) third with ⟨fresh₃, next₃, _⟩
  rcases Option.bind_eq_some_iff.mp loop with ⟨m₄, fourth, loop⟩
  rcases fresh₃.initProcess (loop_later (by omega)) fourth with ⟨fresh₄, next₄, last⟩
  cases loop
  exact ⟨fresh₄, by omega, last⟩

/-- No processor has begun. -/
theorem Machine.Fresh.ordered (fresh : m.Fresh) : m.Ordered fun _ => .idle where
  code c := by
    rw [fresh.code c]
    rfl
  lock c := by
    rw [fresh.held]
    exact iff_of_false nofun nofun
  scheduler c := iff_of_true (fresh.current c) rfl
  state c p here := by
    rw [fresh.current c] at here
    cases here
  resume c process := by
    rcases process with process | process | process <;> cases process
  chosen c p never := by cases never
  embryo c q never := by cases never
  owner c c' q never := by cases never
  one c c' p here := by
    rw [fresh.current c] at here
    cases here
  running p state := by
    rcases fresh.used p with unused | new
    · rw [unused] at state
      cases state
    · rw [new.state] at state
      cases state
  context p parked := by
    rcases parked with ⟨state, _⟩ | ⟨c, never⟩
    · rcases fresh.used p with unused | new
      · rw [unused] at state
        rcases state with never | never | never <;> cases never
      · exact ⟨Code.forkret, new.context, disciplined_forkret⟩
    · cases never
  dead c never := by cases never
  keeps c lk never := by cases never

/-- The invariant of the scheduler holds in every state of every run. -/
theorem Reachable.scheduled (reachable : Reachable m) : m.Scheduled := by
  induction reachable with
  | boot page idle booted => exact ⟨_, (main_fresh booted).1.ordered⟩
  | step _ next ih =>
      cases next with
      | exec c a effect => exact exec_scheduled ih effect

end PiKernel.Ptable
