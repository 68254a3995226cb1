import PiKernel.Ptable.Discipline

/-!
# The invariant of the scheduler

Every processor is in a phase; the phase of a processor ties its code, the lock, the
process it runs and the state of that process.  A process that may run, and is not
running, has a saved continuation which holds the lock.
-/

namespace PiKernel.Ptable

open PiKernel.Conc
open PiKernel.Trap (ProcState)

variable
    {slots cpus : Nat}

/-- The states of the process of a processor. -/
def Role.Allows : Role slots → ProcState → Prop
  | .process, state | .chosen _, state => state = .RUNNING
  | .leaving, state => state = .RUNNABLE ∨ state = .SLEEPING
  | .dying, state => state = .ZOMBIE
  | .back, state => state = .RUNNABLE ∨ state = .SLEEPING ∨ state = .ZOMBIE
  | .scheduler, _ => False

/-- The processor executes the code of a process. -/
def Role.IsProcess (role : Role slots) : Prop :=
  role = .process ∨ role = .leaving ∨ role = .dying

/-- What other processors may do to a state at any time. -/
def Calm (before after : ProcState) : Prop :=
  after = before ∨ before = .SLEEPING ∧ after = .RUNNABLE

namespace Machine

variable
    (m : Machine slots cpus)
    (phase : Fin cpus → Phase slots)

/-- The process will be resumed, and no processor has begun to. -/
def Parked (p : Fin slots) : Prop :=
  ((m.proc p).state = .RUNNABLE ∨ (m.proc p).state = .SLEEPING ∨
      (m.proc p).state = .EMBRYO) ∧
      (∀ c, m.current c = some p → (phase c).role = .back) ∨
    ∃ c, (phase c).role = .chosen p

structure Ordered : Prop where
  code : ∀ c, Disciplined (phase c) (m.code c)
  lock : ∀ c, m.held .ptable = some c ↔ (phase c).holds
  scheduler : ∀ c, m.current c = none ↔ (phase c).role = .scheduler
  state : ∀ c p, m.current c = some p → (phase c).role.Allows (m.proc p).state
  resume : ∀ c, (phase c).role.IsProcess →
    ∃ k, m.scheduler c = some k ∧ Disciplined .back k
  chosen : ∀ c p, (phase c).role = .chosen p → m.current c = some p
  embryo : ∀ c q, (phase c).embryo = some q → (m.proc q).state = .EMBRYO
  owner : ∀ c c' q, (phase c).embryo = some q → (phase c').embryo = some q → c = c'
  one : ∀ c c' p, m.current c = some p → m.current c' = some p → c = c'
  running : ∀ p, (m.proc p).state = .RUNNING → ∃ c, m.current c = some p
  context : ∀ p, m.Parked phase p → ∃ k, m.context p = some k ∧ Disciplined .locked k
  dead : ∀ c, phase c = .dead → Blamed (m.code c)
  keeps : ∀ c lk, (phase c).keeps = some lk → m.held lk = some c

end Machine

namespace Machine.Ordered

variable
    {m m' : Machine slots cpus}
    {phase : Fin cpus → Phase slots}
    {c : Fin cpus}
    {ph : Phase slots}
    {k : Code slots}

/-! ## One processor holds the lock -/

theorem holder (ordered : m.Ordered phase) {c' : Fin cpus}
    (here : (phase c).holds) (there : (phase c').holds) : c' = c := by
  have first := (ordered.lock c).mpr here
  have second := (ordered.lock c').mpr there
  rw [first] at second
  exact (Option.some.inj second).symm

/-- While one processor holds the lock, the others run processes or `scheduler`. -/
theorem other_role (ordered : m.Ordered phase) {c' : Fin cpus}
    (here : (phase c).holds) (other : c' ≠ c) :
    (phase c').role = .process ∨ (phase c').role = .scheduler := by
  have free : ¬ (phase c').holds := fun there => other (ordered.holder here there)
  cases at_ : phase c' with
  | unlocked => exact Or.inl rfl
  | building p => exact Or.inl rfl
  | born p => exact Or.inl rfl
  | entering lk => exact Or.inl rfl
  | dead => exact Or.inl rfl
  | idle => exact Or.inr rfl
  | _ => exact absurd (by rw [at_]; rfl) free

theorem other_state (ordered : m.Ordered phase) {c' : Fin cpus} {p : Fin slots}
    (here : (phase c).holds) (other : c' ≠ c) (current : m.current c' = some p) :
    (m.proc p).state = .RUNNING := by
  have allowed := ordered.state c' p current
  rcases ordered.other_role here other with role | role
  · rwa [role] at allowed
  · rw [role] at allowed
    exact allowed.elim

/-! ## The lock -/

/-- The processor neither takes nor gives up the lock. -/
theorem lock_kept (ordered : m.Ordered phase) (held : m'.held .ptable = m.held .ptable)
    (holds : ph.holds = (phase c).holds) (c' : Fin cpus) :
    m'.held .ptable = some c' ↔ (Function.update phase c ph c').holds := by
  rw [held, ordered.lock c']
  by_cases same : c' = c
  · subst same
    rw [Function.update_self, holds]
  · rw [Function.update_of_ne same]

theorem lock_taken (ordered : m.Ordered phase) (free : m.held .ptable = none)
    (held : m'.held .ptable = some c) (holds : ph.holds) (c' : Fin cpus) :
    m'.held .ptable = some c' ↔ (Function.update phase c ph c').holds := by
  rw [held]
  by_cases same : c' = c
  · subst same
    rw [Function.update_self]
    exact iff_of_true rfl holds
  · rw [Function.update_of_ne same, ← ordered.lock c', free]
    constructor
    · intro taken
      exact absurd (Option.some.inj taken).symm same
    · intro never
      cases never

theorem lock_released (ordered : m.Ordered phase) (here : (phase c).holds)
    (held : m'.held .ptable = none) (holds : ¬ ph.holds) (c' : Fin cpus) :
    m'.held .ptable = some c' ↔ (Function.update phase c ph c').holds := by
  rw [held]
  by_cases same : c' = c
  · subst same
    rw [Function.update_self]
    exact iff_of_false nofun holds
  · rw [Function.update_of_ne same]
    exact iff_of_false nofun fun there => same (ordered.holder here there)

/-! ## Steps that keep what every processor runs -/

/-- The roles of all processors, after one of them has gone to another phase. -/
theorem role_kept (role : ph.role = (phase c).role) (c' : Fin cpus) :
    (Function.update phase c ph c').role = (phase c').role := by
  by_cases same : c' = c
  · subst same
    rw [Function.update_self, role]
  · rw [Function.update_of_ne same]

theorem code_updated (ordered : m.Ordered phase)
    (code : m'.code = Function.update m.code c k) (follows : Disciplined ph k) (c' : Fin cpus) :
    Disciplined (Function.update phase c ph c') (m'.code c') := by
  rw [code]
  by_cases same : c' = c
  · subst same
    rwa [Function.update_self, Function.update_self]
  · rw [Function.update_of_ne same, Function.update_of_ne same]
    exact ordered.code c'

theorem dead_updated (ordered : m.Ordered phase)
    (code : m'.code = Function.update m.code c k)
    (dead : ph = .dead → Blamed k)
    (c' : Fin cpus) (here : Function.update phase c ph c' = .dead) :
    Blamed (m'.code c') := by
  rw [code]
  by_cases same : c' = c
  · subst same
    rw [Function.update_self] at here ⊢
    exact dead here
  · rw [Function.update_of_ne same] at here ⊢
    exact ordered.dead c' here

theorem embryo_updated {q : Fin slots}
    (embryo : ∀ q, ph.embryo = some q → (phase c).embryo = some q)
    {c' : Fin cpus} (here : (Function.update phase c ph c').embryo = some q) :
    (phase c').embryo = some q := by
  by_cases same : c' = c
  · subst same
    rw [Function.update_self] at here
    exact embryo q here
  · rwa [Function.update_of_ne same] at here

/-- A lock that a processor holds is not given up by another. -/
theorem keeps_updated (ordered : m.Ordered phase)
    (kept : ∀ c' lk, c' ≠ c → m.held lk = some c' → m'.held lk = some c')
    (keeps : ∀ lk, ph.keeps = some lk → m'.held lk = some c)
    (c' : Fin cpus) (lk : Lock) (here : (Function.update phase c ph c').keeps = some lk) :
    m'.held lk = some c' := by
  by_cases same : c' = c
  · subst same
    rw [Function.update_self] at here
    exact keeps lk here
  · rw [Function.update_of_ne same] at here
    exact kept c' lk same (ordered.keeps c' lk here)

/-- The states change as other processors may change them at any time. -/
theorem advance (ordered : m.Ordered phase)
    (code : m'.code = Function.update m.code c k)
    (current : m'.current = m.current)
    (context : m'.context = m.context)
    (scheduler : m'.scheduler = m.scheduler)
    (calm : ∀ p, Calm (m.proc p).state (m'.proc p).state)
    (lock : ∀ c', m'.held .ptable = some c' ↔ (Function.update phase c ph c').holds)
    (role : ph.role = (phase c).role)
    (embryo : ∀ q, ph.embryo = some q → (phase c).embryo = some q)
    (follows : Disciplined ph k)
    (dead : ph = .dead → Blamed k)
    (kept : ∀ c' lk, c' ≠ c → m.held lk = some c' → m'.held lk = some c')
    (keeps : ∀ lk, ph.keeps = some lk → m'.held lk = some c) :
    m'.Ordered (Function.update phase c ph) where
  code := ordered.code_updated code follows
  lock := lock
  scheduler c' := by
    rw [current, role_kept role]
    exact ordered.scheduler c'
  state c' p here := by
    rw [role_kept role]
    rw [current] at here
    have allowed := ordered.state c' p here
    rcases calm p with same | ⟨asleep, awake⟩
    · rwa [same]
    · rw [asleep] at allowed
      rw [awake]
      cases at_ : (phase c').role <;> rw [at_] at allowed <;> simp_all [Role.Allows]
  resume c' here := by
    rw [role_kept role] at here
    rw [scheduler]
    exact ordered.resume c' here
  chosen c' p here := by
    rw [role_kept role] at here
    rw [current]
    exact ordered.chosen c' p here
  embryo c' q here := by
    have before := ordered.embryo c' q (embryo_updated embryo here)
    rcases calm q with same | ⟨asleep, _⟩
    · rw [same, before]
    · rw [before] at asleep
      cases asleep
  owner c' c'' q here there :=
    ordered.owner c' c'' q (embryo_updated embryo here) (embryo_updated embryo there)
  one c' c'' p here there := by
    rw [current] at here there
    exact ordered.one c' c'' p here there
  running p state := by
    rw [current]
    apply ordered.running
    rcases calm p with same | ⟨_, awake⟩
    · rwa [← same]
    · rw [awake] at state
      cases state
  context p parked := by
    rw [context]
    apply ordered.context
    rcases parked with ⟨state, back⟩ | ⟨c', chosen⟩
    · refine Or.inl ⟨?_, fun c' here => ?_⟩
      · rcases calm p with same | ⟨asleep, _⟩
        · rwa [← same]
        · exact Or.inr (Or.inl asleep)
      · rw [← role_kept role]
        apply back
        rwa [current]
    · rw [role_kept role] at chosen
      exact Or.inr ⟨c', chosen⟩
  dead := ordered.dead_updated code dead
  keeps := ordered.keeps_updated kept keeps

/-- Nothing but the code of a processor has changed. -/
theorem goto (ordered : m.Ordered phase)
    (code : m'.code = Function.update m.code c k)
    (current : m'.current = m.current)
    (context : m'.context = m.context)
    (scheduler : m'.scheduler = m.scheduler)
    (held : m'.held = m.held)
    (calm : ∀ p, Calm (m.proc p).state (m'.proc p).state)
    (follows : Disciplined (phase c) k)
    (alive : phase c ≠ .dead) :
    m'.Ordered phase := by
  have same : m'.Ordered (Function.update phase c (phase c)) :=
    ordered.advance code current context scheduler calm
    (ordered.lock_kept (congrFun held _) rfl) rfl (fun _ here => here) follows
    (fun dead => absurd dead alive) (fun c' lk _ there => by rwa [held])
    fun lk here => by rw [held, ordered.keeps c lk here]
  rwa [Function.update_eq_self] at same

/-! ## Steps that change what one processor runs -/

/-- One processor changes; the others see only changes that may happen at any time. -/
theorem update (ordered : m.Ordered phase)
    (code : m'.code = Function.update m.code c k)
    (follows : Disciplined ph k)
    (dead : ph = .dead → Blamed k)
    (lock : ∀ c', m'.held .ptable = some c' ↔ (Function.update phase c ph c').holds)
    (kept : ∀ c' lk, c' ≠ c → m.held lk = some c' → m'.held lk = some c')
    (keeps : ∀ lk, ph.keeps = some lk → m'.held lk = some c)
    (current : ∀ c', c' ≠ c → m'.current c' = m.current c')
    (scheduler : ∀ c', c' ≠ c → m'.scheduler c' = m.scheduler c')
    (states : ∀ c' p, c' ≠ c → m.current c' = some p → (m'.proc p).state = (m.proc p).state)
    (embryos : ∀ c' q, c' ≠ c → (phase c').embryo = some q → (m'.proc q).state = .EMBRYO)
    (hereScheduler : m'.current c = none ↔ ph.role = .scheduler)
    (hereState : ∀ p, m'.current c = some p → ph.role.Allows (m'.proc p).state)
    (hereResume : ph.role.IsProcess → ∃ k, m'.scheduler c = some k ∧ Disciplined .back k)
    (hereChosen : ∀ p, ph.role = .chosen p → m'.current c = some p)
    (hereEmbryo : ∀ q, ph.embryo = some q →
      (m'.proc q).state = .EMBRYO ∧ ∀ c', c' ≠ c → (phase c').embryo ≠ some q)
    (hereOne : ∀ c' p, c' ≠ c → m'.current c = some p → m.current c' ≠ some p)
    (running : ∀ p, (m'.proc p).state = .RUNNING → ∃ c', m'.current c' = some p)
    (context : ∀ p, m'.Parked (Function.update phase c ph) p →
      ∃ k, m'.context p = some k ∧ Disciplined .locked k) :
    m'.Ordered (Function.update phase c ph) where
  code := ordered.code_updated code follows
  lock := lock
  scheduler := by
    apply (Function.forall_update_iff phase fun c' ph' =>
      m'.current c' = none ↔ ph'.role = .scheduler).mpr
    constructor
    · exact hereScheduler
    · intro c' other
      rw [current c' other]
      exact ordered.scheduler c'
  state := by
    apply (Function.forall_update_iff phase fun c' ph' =>
      ∀ p, m'.current c' = some p → ph'.role.Allows (m'.proc p).state).mpr
    constructor
    · exact hereState
    · intro c' other p there
      rw [current c' other] at there
      rw [states c' p other there]
      exact ordered.state c' p there
  resume := by
    apply (Function.forall_update_iff phase fun c' ph' =>
      ph'.role.IsProcess → ∃ k, m'.scheduler c' = some k ∧ Disciplined .back k).mpr
    constructor
    · exact hereResume
    · intro c' other
      rw [scheduler c' other]
      exact ordered.resume c'
  chosen := by
    apply (Function.forall_update_iff phase fun c' ph' =>
      ∀ p, ph'.role = .chosen p → m'.current c' = some p).mpr
    constructor
    · exact hereChosen
    · intro c' other
      rw [current c' other]
      exact ordered.chosen c'
  embryo := by
    apply (Function.forall_update_iff phase fun c' ph' =>
      ∀ q, ph'.embryo = some q → (m'.proc q).state = .EMBRYO).mpr
    constructor
    · exact fun q mine => (hereEmbryo q mine).1
    · exact fun c' other q => embryos c' q other
  owner c' c'' q first second := by
    by_cases same : c' = c
    · subst same
      rw [Function.update_self] at first
      by_contra different
      rw [Function.update_of_ne (Ne.symm different)] at second
      exact (hereEmbryo q first).2 c'' (Ne.symm different) second
    · rw [Function.update_of_ne same] at first
      by_cases same' : c'' = c
      · subst same'
        rw [Function.update_self] at second
        exact absurd first ((hereEmbryo q second).2 c' same)
      · rw [Function.update_of_ne same'] at second
        exact ordered.owner c' c'' q first second
  one c' c'' p first second := by
    by_cases same : c' = c
    · subst same
      by_contra different
      rw [current c'' (Ne.symm different)] at second
      exact hereOne c'' p (Ne.symm different) first second
    · rw [current c' same] at first
      by_cases same' : c'' = c
      · subst same'
        exact absurd first (hereOne c' p same second)
      · rw [current c'' same'] at second
        exact ordered.one c' c'' p first second
  running := running
  context := context
  dead := ordered.dead_updated code dead
  keeps := ordered.keeps_updated kept keeps

theorem holds_locked (before : phase c = .locked) : (phase c).holds := by
  rw [before]
  rfl

/-- The process of a processor is no longer `RUNNING`. -/
theorem leave (ordered : m.Ordered phase) {me : Fin slots}
    (code : m'.code = Function.update m.code c k)
    (current : m'.current = m.current)
    (context : m'.context = m.context)
    (scheduler : m'.scheduler = m.scheduler)
    (held : m'.held = m.held)
    (here : m.current c = some me)
    (before : phase c = .locked)
    (left : ph = .leaving ∨ ph = .dying)
    (allowed : ph.role.Allows (m'.proc me).state)
    (calm : ∀ p, p ≠ me → Calm (m.proc p).state (m'.proc p).state)
    (follows : Disciplined ph k) :
    m'.Ordered (Function.update phase c ph) := by
  have role : ph.role = .leaving ∨ ph.role = .dying := by
    rcases left with rfl | rfl
    · exact Or.inl rfl
    · exact Or.inr rfl
  have mine {c' : Fin cpus} {p : Fin slots} (other : c' ≠ c)
      (there : m.current c' = some p) : p ≠ me := by
    rintro rfl
    exact other (ordered.one c' c p there here)
  apply ordered.update code follows
  · intro dead
    rcases left with rfl | rfl <;> cases dead
  · apply ordered.lock_kept (congrFun held _)
    rw [before]
    rcases left with rfl | rfl <;> rfl
  · intro c' lk _ there
    rwa [held]
  · intro lk here
    rcases left with rfl | rfl <;> cases here
  · intro c' _
    rw [current]
  · intro c' _
    rw [scheduler]
  · intro c' p other there
    rcases calm p (mine other there) with same | ⟨asleep, _⟩
    · exact same
    · have running := ordered.other_state (holds_locked before) other there
      rw [asleep] at running
      cases running
  · intro c' q _ embryo
    have state := ordered.embryo c' q embryo
    have other : q ≠ me := by
      rintro rfl
      have running := ordered.state c q here
      rw [before] at running
      rw [state] at running
      cases running
    rcases calm q other with same | ⟨asleep, _⟩
    · rw [same, state]
    · rw [state] at asleep
      cases asleep
  · rw [current, here]
    apply iff_of_false nofun
    intro scheduler
    rcases role with role | role <;> rw [role] at scheduler <;> cases scheduler
  · intro p there
    rw [current, here] at there
    cases there
    exact allowed
  · intro _
    rw [scheduler]
    apply ordered.resume
    rw [before]
    exact Or.inl rfl
  · intro p chosen
    rcases role with role | role <;> rw [role] at chosen <;> cases chosen
  · intro q embryo
    rcases left with rfl | rfl <;> cases embryo
  · intro c' p other there
    rw [current, here] at there
    cases there
    exact fun there => mine other there rfl
  · intro p state
    rw [current]
    by_cases same : p = me
    · subst same
      exact ⟨c, here⟩
    · apply ordered.running
      rcases calm p same with same | ⟨_, awake⟩
      · rwa [← same]
      · rw [awake] at state
        cases state
  · intro p parked
    rw [context]
    apply ordered.context
    rcases parked with ⟨state, back⟩ | ⟨c', chosen⟩
    · rw [current] at back
      have other : p ≠ me := by
        rintro rfl
        have never := back c here
        rw [Function.update_self] at never
        rcases role with role | role <;> rw [role] at never <;> cases never
      refine Or.inl ⟨?_, fun c' there => ?_⟩
      · rcases calm p other with same | ⟨asleep, _⟩
        · rwa [← same]
        · exact Or.inr (Or.inl asleep)
      · have away : c' ≠ c := by
          rintro rfl
          rw [here] at there
          cases there
          exact other rfl
        have role' := back c' there
        rwa [Function.update_of_ne away] at role'
    · by_cases same : c' = c
      · subst same
        rw [Function.update_self] at chosen
        rcases role with role | role <;> rw [role] at chosen <;> cases chosen
      · rw [Function.update_of_ne same] at chosen
        exact Or.inr ⟨c', chosen⟩

/-- A slot that no processor runs is written. -/
theorem slot (ordered : m.Ordered phase) {q : Fin slots}
    (code : m'.code = Function.update m.code c k)
    (current : m'.current = m.current)
    (context : ∀ p, p ≠ q → m'.context p = m.context p)
    (scheduler : m'.scheduler = m.scheduler)
    (held : m'.held = m.held)
    (holds : ph.holds = (phase c).holds)
    (role : ph.role = (phase c).role)
    (absent : ∀ c', m.current c' ≠ some q)
    (states : ∀ p, p ≠ q → (m'.proc p).state = (m.proc p).state)
    (stopped : (m'.proc q).state ≠ .RUNNING)
    (resumed : (m'.proc q).state = .RUNNABLE ∨ (m'.proc q).state = .SLEEPING ∨
      (m'.proc q).state = .EMBRYO → ∃ k, m'.context q = some k ∧ Disciplined .locked k)
    (owner : ∀ c', c' ≠ c → (phase c').embryo ≠ some q)
    (embryo : ∀ p, ph.embryo = some p →
      p = q ∧ (m'.proc q).state = .EMBRYO)
    (follows : Disciplined ph k)
    (alive : ph ≠ .dead)
    (keeps : ph.keeps = none) :
    m'.Ordered (Function.update phase c ph) := by
  have present {c' : Fin cpus} {p : Fin slots} (there : m.current c' = some p) : p ≠ q := by
    rintro rfl
    exact absent c' there
  apply ordered.update code follows
  · exact fun dead => absurd dead alive
  · exact ordered.lock_kept (congrFun held _) holds
  · intro c' lk _ there
    rwa [held]
  · intro lk here
    rw [keeps] at here
    cases here
  · intro c' _
    rw [current]
  · intro c' _
    rw [scheduler]
  · intro c' p _ there
    exact states p (present there)
  · intro c' p other here
    have away : p ≠ q := by
      rintro rfl
      exact owner c' other here
    rw [states p away]
    exact ordered.embryo c' p here
  · rw [current, role]
    exact ordered.scheduler c
  · intro p there
    rw [current] at there
    rw [role, states p (present there)]
    exact ordered.state c p there
  · intro process
    rw [role] at process
    rw [scheduler]
    exact ordered.resume c process
  · intro p chosen
    rw [role] at chosen
    rw [current]
    exact ordered.chosen c p chosen
  · intro p here
    rcases embryo p here with ⟨rfl, state⟩
    exact ⟨state, owner⟩
  · intro c' p other here there
    rw [current] at here
    exact other (ordered.one c' c p there here)
  · intro p state
    have away : p ≠ q := by
      rintro rfl
      exact stopped state
    rw [current]
    apply ordered.running
    rwa [← states p away]
  · intro p parked
    have chosen_ne {c' : Fin cpus} (chosen : (phase c').role = .chosen p) : p ≠ q :=
      present (ordered.chosen c' p chosen)
    rcases parked with ⟨state, back⟩ | ⟨c', chosen⟩
    · by_cases same : p = q
      · subst same
        exact resumed state
      · rw [context p same]
        apply ordered.context
        rw [states p same] at state
        refine Or.inl ⟨state, fun c' there => ?_⟩
        rw [← role_kept role]
        apply back
        rwa [current]
    · rw [role_kept role] at chosen
      rw [context p (chosen_ne chosen)]
      exact ordered.context p (Or.inr ⟨c', chosen⟩)

/-- A slot that is nobody's child to be is written by a processor that stays in its phase. -/
theorem slot_kept (ordered : m.Ordered phase) {q : Fin slots}
    (code : m'.code = Function.update m.code c k)
    (current : m'.current = m.current)
    (context : ∀ p, p ≠ q → m'.context p = m.context p)
    (scheduler : m'.scheduler = m.scheduler)
    (held : m'.held = m.held)
    (absent : ∀ c', m.current c' ≠ some q)
    (states : ∀ p, p ≠ q → (m'.proc p).state = (m.proc p).state)
    (before : (m.proc q).state ≠ .EMBRYO)
    (stopped : (m'.proc q).state ≠ .RUNNING)
    (resumed : (m'.proc q).state = .RUNNABLE ∨ (m'.proc q).state = .SLEEPING ∨
      (m'.proc q).state = .EMBRYO → ∃ k, m'.context q = some k ∧ Disciplined .locked k)
    (follows : Disciplined (phase c) k)
    (alive : phase c ≠ .dead)
    (embryo : (phase c).embryo = none)
    (keeps : (phase c).keeps = none) :
    m'.Ordered phase := by
  have kept : m'.Ordered (Function.update phase c (phase c)) :=
    ordered.slot code current context scheduler held rfl rfl absent
    states stopped resumed (fun c' _ here => before (ordered.embryo c' q here))
    (fun p here => by rw [embryo] at here; cases here) follows alive keeps
  rwa [Function.update_eq_self] at kept

end Machine.Ordered

end PiKernel.Ptable
