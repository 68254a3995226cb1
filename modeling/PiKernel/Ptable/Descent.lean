import PiKernel.Ptable.Sleeping

/-!
# Descent

The births, exits and waits of a run, in order, are those of a forest: `wait` returns a pid
once, to the process that is the parent then, after the child has called `exit`; and it
returns -1 only to a process all of whose children have been waited for.
-/

namespace PiKernel.Ptable

open PiKernel.Conc
open PiKernel.Trap (ProcState)

variable
    {slots cpus : Nat}
    {m m' : Machine slots cpus}
    {phase : Fin cpus → Phase slots}
    {c : Fin cpus}
    {k rest : Code slots}
    {p q : Fin slots}

/-! ## Histories -/

/-- The parent that an event gives a process. -/
def Event.gives (n : Nat) : Event slots → Option Nat
  | .born a n' | .adopted a n' => if n' = n then some a else none
  | _ => none

/-- The parent of a process after these events, of which the latest is the first. -/
def parentOf (events : List (Event slots)) (n : Nat) : Option Nat :=
  events.findSome? (Event.gives n)

def Waited (events : List (Event slots)) (n : Nat) : Prop := ∃ a, .waited a n ∈ events

/-- What may happen after these events. -/
inductive Admissible (before : List (Event slots)) : Event slots → Prop where
  | born (a n : Nat) (fresh : parentOf before n = none) : Admissible before (.born a n)
  | forked (a n : Nat) (child : parentOf before n = some a) : Admissible before (.forked a n)
  | exited (n : Nat) : Admissible before (.exited n)
  | adopted (a b n : Nat) (child : parentOf before n = some b) (exited : .exited b ∈ before)
      (kept : ¬ Waited before n) : Admissible before (.adopted a n)
  | waited (a n : Nat) (child : parentOf before n = some a) (exited : .exited n ∈ before)
      (once : ¬ Waited before n) : Admissible before (.waited a n)
  | noChild (a : Nat) (childless : ∀ n, parentOf before n = some a → Waited before n) :
      Admissible before (.noChild a)

def Lawful (events : List (Event slots)) : Prop :=
  ∀ later event before, events = later ++ event :: before → Admissible before event

theorem Lawful.nil : Lawful ([] : List (Event slots)) := by
  intro later event before whole
  cases later <;> cases whole

theorem Lawful.cons {event : Event slots} {events : List (Event slots)}
    (lawful : Lawful events) (admissible : Admissible events event) :
    Lawful (event :: events) := by
  intro later event' before whole
  cases later with
  | nil =>
      cases whole
      exact admissible
  | cons _ later =>
      cases whole
      exact lawful later event' before rfl

section Events

variable
    {events : List (Event slots)}
    {event : Event slots}
    {a n n' : Nat}

theorem parentOf_cons (gives : event.gives n = none) :
    parentOf (event :: events) n = parentOf events n := by
  unfold parentOf
  rw [List.findSome?_cons, gives]

theorem parentOf_here (gives : event.gives n = some a) :
    parentOf (event :: events) n = some a := by
  unfold parentOf
  rw [List.findSome?_cons, gives]

theorem gives_other (other : n' ≠ n) :
    (Event.born a n' : Event slots).gives n = none ∧
      (Event.adopted a n' : Event slots).gives n = none :=
  ⟨if_neg other, if_neg other⟩

theorem waited_cons (other : ∀ a, event ≠ .waited a n) :
    Waited (event :: events) n ↔ Waited events n := by
  unfold Waited
  apply exists_congr
  intro a
  rw [List.mem_cons]
  exact or_iff_right fun same => other a same.symm

end Events

namespace Effect

/-- A slot that is taken gets a new pid. -/
theorem pid_fresh (effect : Effect c m m') (ordered : m.Ordered phase)
    (unused : (m.proc q).state = .UNUSED) (used : (m'.proc q).state ≠ .UNUSED) :
    m'.pid q = m.nextpid := by
  cases effect with
  | quiet proc _ _ => exact absurd ((proc q).state.trans unused) used
  | alloc me p page k here code unused' room proc _ _ _ _ _ =>
      by_cases mine : q = p
      · subst mine
        unfold Machine.pid Table.alloc at *
        rw [proc, Function.update_self]
      · rw [proc, Machine.Ordered.alloc_other page m.nextpid mine] at used
        exact absurd unused used
  | discard p k code proc _ _ _ _ _ =>
      rw [write_state proc] at used
      split at used
      · exact absurd rfl used
      · exact absurd unused used
  | born me p k here code proc _ _ =>
      rw [write_state proc] at used
      split at used
      · next mine =>
          subst mine
          exact absurd unused used
      · exact absurd unused used
  | ready p k code proc _ _ =>
      have embryo := (ordered.embryo_of_stmt code (Or.inr (Or.inr rfl))).2
      rw [write_state proc] at used
      split at used
      · next mine =>
          subst mine
          rw [unused] at embryo
          cases embryo
      · exact absurd unused used
  | forked me p k _ _ proc _ _ | noChild me k _ _ _ proc _ _ =>
      rw [proc] at used
      exact absurd unused used
  | exiting me k _ _ _ _ proc _ _ =>
      rw [proc] at used
      exact absurd unused used
  | run p runnable proc _ _ =>
      rw [write_state proc] at used
      split at used
      · next mine =>
          subst mine
          rw [unused] at runnable
          cases runnable
      · exact absurd unused used
  | leave me chan state stmt k here code leaves proc _ _ =>
      rw [write_state proc] at used
      split at used
      · next mine =>
          subst mine
          exact absurd unused (ordered.used here)
      · exact absurd unused used
  | wakeup chan k code proc _ _ =>
      rcases wakeup1_state m.proc chan (q := q) with kept | ⟨asleep, _⟩
      · rw [proc, kept] at used
        exact absurd unused used
      · rw [unused] at asleep
        cases asleep
  | exit me k here code proc _ _ =>
      have other : q ≠ me := by
        rintro rfl
        exact ordered.used here unused
      rcases exit_state m.proc me m.initproc other with kept | ⟨asleep, _⟩
      · rw [proc, kept] at used
        exact absurd unused used
      · rw [unused] at asleep
        cases asleep
  | reap me p k here code found proc _ _ _ _ _ =>
      rw [proc] at used
      by_cases mine : q = p
      · subst mine
        rw [reap_here] at used
        exact absurd rfl used
      · rw [reap_other m.proc mine] at used
        exact absurd unused used

/-- Nobody is killed. -/
theorem killed (effect : Effect c m m') (calm : ∀ p, (m.proc p).killed = false) (q : Fin slots) :
    (m'.proc q).killed = false := by
  have written {p : Fin slots} {proc : Proc slots}
      (written : m'.proc = Function.update m.proc p proc) (same : proc.killed = false) :
      (m'.proc q).killed = false := by
    rw [written]
    by_cases here : q = p
    · rw [here, Function.update_self, same]
    · rw [Function.update_of_ne here, calm q]
  cases effect with
  | quiet proc _ _ => exact (proc q).killed.trans (calm q)
  | alloc me p page k _ _ _ _ proc _ _ _ _ _ => exact written proc (calm p)
  | discard p k _ proc _ _ _ _ _ => exact written proc (calm p)
  | born me p k _ _ proc _ _ => exact written proc (calm p)
  | ready p k _ proc _ _ => exact written proc (calm p)
  | forked me p k _ _ proc _ _ | noChild me k _ _ _ proc _ _ =>
      rw [proc]
      exact calm q
  | exiting me k _ _ _ _ proc _ _ =>
      rw [proc]
      exact calm q
  | run p _ proc _ _ => exact written proc (calm p)
  | leave me chan state stmt k _ _ _ proc _ _ => exact written proc (calm me)
  | wakeup chan k _ proc _ _ =>
      rw [proc, Table.wakeup1_apply]
      exact calm q
  | exit me k _ _ proc _ _ =>
      rw [proc, Table.exit_apply]
      exact calm q
  | reap me p k _ _ _ proc _ _ _ _ _ => exact written proc rfl

end Effect

/-! ## The process table and the history -/

/-- What the history has to do with the table. -/
structure Machine.History (m : Machine slots cpus) : Prop where
  link : ∀ p q, (m.proc p).parent = some q → parentOf m.family (m.pid p) = some (m.pid q)
  known : ∀ n a, parentOf m.family n = some a →
    Waited m.family n ∨ ∃ p q, m.pid p = n ∧ m.pid q = a ∧ (m.proc p).parent = some q
  gone : ∀ n, Waited m.family n →
    n < m.nextpid ∧ ∀ p, (m.proc p).state ≠ .UNUSED → m.pid p ≠ n
  lawful : Lawful m.family

structure Machine.Descent (m : Machine slots cpus) : Prop where
  killed : ∀ p, (m.proc p).killed = false
  exits : ∀ p k, m.Continues p k → Code.exits k → .exited (m.pid p) ∈ m.family
  zombie : ∀ p, (m.proc p).state = .ZOMBIE → .exited (m.pid p) ∈ m.family
  history : m.History

namespace Machine.Descent

/-- A process that has exited is recorded, whether or not it is a zombie yet. -/
theorem exits_step {a : Action slots} {phase' : Fin cpus → Phase slots} (descent : m.Descent)
    (kin : m.Kin) (ordered : m.Ordered phase) (ordered' : m'.Ordered phase')
    (step : exec c a m = some m') (there : m'.Continues p k) (exits : Code.exits k) :
    .exited (m'.pid p) ∈ m'.family := by
  have effect := exec_effect step
  have kept {code : Code slots} (before : m.Continues p code)
      (exited : .exited (m.pid p) ∈ m.family) :
      .exited (m'.pid p) ∈ m'.family := by
    rw [effect.pid_kept (kin.continues_used ordered before)
      ((kin.step ordered step).continues_used ordered' there)]
    exact effect.family_subset exited
  rcases exec_continues step ordered there with
    before | rfl | ⟨stmt, rest, executes, next⟩ | ⟨rfl, _⟩
  · exact kept before (descent.exits p k before exits)
  · cases exits
  · have before : m.Continues p (stmt :: rest) := Or.inr ⟨c, executes⟩
    rcases next.exits exits with exits | ⟨rfl, rfl, other⟩
    · exact kept before (descent.exits p _ before exits)
    · rw [effect.pid_kept (kin.continues_used ordered before)
        ((kin.step ordered step).continues_used ordered' there)]
      unfold exec at step
      rw [executes.2.1] at step
      simp only [executes.1, Option.bind_some, Stmt.runProc, if_neg other,
        Option.some.injEq] at step
      subst step
      change _ ∈ (m.note c .exited).family
      unfold Machine.note
      rw [family_record, executes.1]
      exact List.mem_append_left _ List.mem_cons_self
  · cases exits

theorem zombie_step (descent : m.Descent) (ordered : m.Ordered phase)
    (effect : Effect c m m') (zombie : (m'.proc p).state = .ZOMBIE) :
    .exited (m'.pid p) ∈ m'.family := by
  have used' : (m'.proc p).state ≠ .UNUSED := by simp [zombie]
  have kept (used : (m.proc p).state ≠ .UNUSED) (exited : .exited (m.pid p) ∈ m.family) :
      .exited (m'.pid p) ∈ m'.family := by
    rw [effect.pid_kept used used']
    exact effect.family_subset exited
  cases effect.ofState ordered p with
  | same state =>
      have before := state.symm.trans zombie
      exact kept (by simp [before]) (descent.zombie p before)
  | alive _ after => exact absurd zombie after.not_zombie
  | died before _ here k code _ =>
      exact kept before.used
        (descent.exits p _ (Or.inr ⟨c, executes_cons here code rfl⟩) rfl)
  | taken _ after | dropped _ after | ready _ after | reaped _ after =>
      rw [after] at zombie
      cases zombie

end Machine.Descent

/-! ## Births -/

namespace Machine.History

variable
    {me : Fin slots}

/-- The history and the parents are kept. -/
theorem still (history : m.History) (kin : m.Kin) (kin' : m'.Kin) (ordered : m.Ordered phase)
    (effect : Effect c m m') (family : m'.family = m.family)
    (nextpid : m.nextpid ≤ m'.nextpid)
    (parent : ∀ p, (m'.proc p).parent = (m.proc p).parent) : m'.History := by
  have pids {p q : Fin slots} (child : (m.proc p).parent = some q) :
      m'.pid p = m.pid p ∧ m'.pid q = m.pid q := by
    have child' := (parent p).trans child
    exact ⟨effect.pid_kept (kin.parent p q child).1 (kin'.parent p q child').1,
      effect.pid_kept (kin.parent p q child).2.used (kin'.parent p q child').2.used⟩
  constructor
  · intro p q child
    rw [parent p] at child
    rw [family, (pids child).1, (pids child).2]
    exact history.link p q child
  · intro n a given
    rw [family] at given ⊢
    rcases history.known n a given with waited | ⟨p, q, mine, other, child⟩
    · exact Or.inl waited
    · refine Or.inr ⟨p, q, ?_, ?_, (parent p).trans child⟩
      · rw [(pids child).1, mine]
      · rw [(pids child).2, other]
  · intro n waited
    rw [family] at waited
    rcases history.gone n waited with ⟨old, absent⟩
    refine ⟨Nat.lt_of_lt_of_le old nextpid, ?_⟩
    intro p used
    by_cases unused : (m.proc p).state = .UNUSED
    · rw [effect.pid_fresh ordered unused used]
      exact Nat.ne_of_gt old
    · rw [effect.pid_kept unused used]
      exact absent p unused
  · rw [family]
    exact history.lawful

/-- An event that leaves the table as it is. -/
theorem note {event : Event slots} (history : m.History) (proc : m'.proc = m.proc)
    (nextpid : m'.nextpid = m.nextpid) (family : m'.family = event :: m.family)
    (gives : ∀ n, event.gives n = none) (waits : ∀ a n, event ≠ .waited a n)
    (admissible : Admissible m.family event) : m'.History := by
  have pid (p : Fin slots) : m'.pid p = m.pid p := congrArg (fun t => (t p).pid) proc
  have waited (n : Nat) : Waited m'.family n ↔ Waited m.family n := by
    rw [family]
    exact waited_cons fun a => waits a n
  have given (n : Nat) : parentOf m'.family n = parentOf m.family n := by
    rw [family]
    exact parentOf_cons (gives n)
  constructor
  · intro p q child
    rw [proc] at child
    rw [given, pid, pid]
    exact history.link p q child
  · intro n a known
    rw [given] at known
    simp only [waited, pid, proc]
    exact history.known n a known
  · intro n before
    simp only [pid, proc, nextpid]
    exact history.gone n ((waited n).mp before)
  · rw [family]
    exact history.lawful.cons admissible

/-- A slot that is in use, and has no parent yet, never had one. -/
theorem fresh (history : m.History) (numbered : m.Numbered) (kin : m.Kin)
    (used : (m.proc p).state ≠ .UNUSED) (orphan : (m.proc p).parent = none) :
    parentOf m.family (m.pid p) = none := by
  by_contra given
  rcases Option.ne_none_iff_exists'.mp given with ⟨a, given⟩
  rcases history.known _ a given with waited | ⟨q, r, same, _, child⟩
  · exact (history.gone _ waited).2 p used rfl
  · have mine := numbered.distinct q p (kin.parent q r child).1 used same
    subst mine
    rw [orphan] at child
    cases child

/-- `fork` gives a slot its parent. -/
theorem born (history : m.History) (numbered : m.Numbered) (kin : m.Kin)
    (used : (m.proc p).state ≠ .UNUSED) (orphan : (m.proc p).parent = none)
    (proc : m'.proc = Function.update m.proc p { m.proc p with parent := some me })
    (nextpid : m'.nextpid = m.nextpid)
    (family : m'.family = .born (m.pid me) (m.pid p) :: m.family) : m'.History := by
  have pid (q : Fin slots) : m'.pid q = m.pid q := Effect.write_pid proc rfl q
  have here : (m'.proc p).parent = some me := by rw [proc, Function.update_self]
  have there {q : Fin slots} (other : q ≠ p) : m'.proc q = m.proc q := by
    rw [proc, Function.update_of_ne other]
  have state (q : Fin slots) : (m'.proc q).state = (m.proc q).state := by
    by_cases same : q = p
    · subst same
      rw [proc, Function.update_self]
    · rw [there same]
  have waited (n : Nat) : Waited m'.family n ↔ Waited m.family n := by
    rw [family]
    exact waited_cons (by simp)
  have mine : parentOf m'.family (m.pid p) = some (m.pid me) := by
    rw [family]
    exact parentOf_here (if_pos rfl)
  have others {n : Nat} (other : n ≠ m.pid p) :
      parentOf m'.family n = parentOf m.family n := by
    rw [family]
    exact parentOf_cons (gives_other (Ne.symm other)).1
  constructor
  · intro q r child
    rw [pid, pid]
    by_cases same : q = p
    · subst same
      rw [here] at child
      cases child
      exact mine
    · rw [there same] at child
      rw [others fun equal => same
        (numbered.distinct q p (kin.parent q r child).1 used equal)]
      exact history.link q r child
  · intro n a given
    by_cases same : n = m.pid p
    · subst same
      rw [mine] at given
      exact Or.inr ⟨p, me, pid p, (pid me).trans (Option.some.inj given), here⟩
    · rw [others same] at given
      rcases history.known n a given with before | ⟨q, r, rfl, parent, child⟩
      · exact Or.inl ((waited n).mpr before)
      · have other : q ≠ p := by
          rintro rfl
          exact same rfl
        refine Or.inr ⟨q, r, pid q, (pid r).trans parent, ?_⟩
        rw [there other]
        exact child
  · intro n before
    simp only [pid, state, nextpid]
    exact history.gone n ((waited n).mp before)
  · rw [family]
    exact history.lawful.cons (.born _ _ (history.fresh numbered kin used orphan))

/-- `wait` gives up the slot of a zombie. -/
theorem reap (history : m.History) (numbered : m.Numbered) (kin : m.Kin)
    (found : m.proc.zombie me = some p) (exited : .exited (m.pid p) ∈ m.family)
    (proc : m'.proc = m.proc.reap p) (nextpid : m'.nextpid = m.nextpid)
    (family : m'.family = .waited (m.pid me) (m.pid p) :: m.family) : m'.History := by
  rcases Table.zombie_state found with ⟨parent, zombie⟩
  have used : (m.proc p).state ≠ .UNUSED := by simp [zombie]
  have there {q : Fin slots} (other : q ≠ p) : m'.proc q = m.proc q := by
    rw [proc, Effect.reap_other m.proc other]
  have here : (m'.proc p).state = .UNUSED ∧ (m'.proc p).parent = none := by
    rw [proc, Effect.reap_here]
    exact ⟨rfl, rfl⟩
  have given (n : Nat) : parentOf m'.family n = parentOf m.family n := by
    rw [family]
    exact parentOf_cons rfl
  have pid {q : Fin slots} (other : q ≠ p) : m'.pid q = m.pid q :=
    congrArg Proc.pid (there other)
  have alive {q r : Fin slots} (child : (m.proc q).parent = some r) : r ≠ p := by
    rintro rfl
    exact (kin.parent q r child).2.not_zombie zombie
  constructor
  · intro q r child
    have other : q ≠ p := by
      rintro rfl
      rw [here.2] at child
      cases child
    rw [there other] at child
    rw [given, pid other, pid (alive child)]
    exact history.link q r child
  · intro n a known
    rw [given] at known
    rcases history.known n a known with ⟨b, before⟩ | ⟨q, r, rfl, parent', child⟩
    · left
      rw [family]
      exact ⟨b, List.mem_cons_of_mem _ before⟩
    · by_cases same : q = p
      · subst same
        left
        rw [family]
        exact ⟨_, List.mem_cons_self⟩
      · refine Or.inr ⟨q, r, pid same, (pid (alive child)).trans parent', ?_⟩
        rw [there same]
        exact child
  · intro n waited
    rw [nextpid]
    rw [family] at waited
    rcases waited with ⟨b, mem⟩
    have apart {q : Fin slots} (used' : (m'.proc q).state ≠ .UNUSED) : q ≠ p := by
      rintro rfl
      exact used' here.1
    rcases List.mem_cons.mp mem with same | before
    · cases same
      refine ⟨(numbered.range p used).2, ?_⟩
      intro q used' equal
      have other := apart used'
      rw [there other] at used'
      rw [pid other] at equal
      exact other (numbered.distinct q p used' used equal)
    · rcases history.gone n ⟨b, before⟩ with ⟨old, absent⟩
      refine ⟨old, ?_⟩
      intro q used' equal
      have other := apart used'
      rw [there other] at used'
      rw [pid other] at equal
      exact absent q used' equal
  · rw [family]
    apply history.lawful.cons
    apply Admissible.waited
    · exact history.link p me parent
    · exact exited
    · intro waited
      exact (history.gone _ waited).2 p used rfl

end Machine.History

/-! ## Orphans -/

section Adoptions

variable
    {events : List (Event slots)}
    {i n : Nat}

/-- The same process adopts some others. -/
def adopts (slots i : Nat) (children : List Nat) : List (Event slots) :=
  children.map (.adopted i)

theorem parentOf_adopts (children : List Nat) :
    parentOf (adopts slots i children ++ events) n =
      if n ∈ children then some i else parentOf events n := by
  induction children with
  | nil => rfl
  | cons child children ih =>
      unfold adopts
      rw [List.map_cons, List.cons_append]
      by_cases same : child = n
      · have gives : (.adopted i child : Event slots).gives n = some i := if_pos same
        rw [parentOf_here gives, if_pos (by simp [same])]
      · rw [parentOf_cons (gives_other same).2]
        change parentOf (adopts slots i children ++ events) n = _
        rw [ih]
        simp [Ne.symm same]

theorem waited_adopts (children : List Nat) :
    Waited (adopts slots i children ++ events) n ↔ Waited events n := by
  unfold Waited
  apply exists_congr
  intro a
  rw [List.mem_append]
  apply or_iff_right
  intro mem
  rcases List.mem_map.mp mem with ⟨_, _, never⟩
  cases never

theorem Lawful.adopts {b : Nat} (lawful : Lawful events) (exited : .exited b ∈ events)
    {children : List Nat} (distinct : children.Nodup)
    (mine : ∀ n ∈ children, parentOf events n = some b ∧ ¬ Waited events n) :
    Lawful (adopts slots i children ++ events) := by
  induction children with
  | nil => exact lawful
  | cons child children ih =>
      rcases List.nodup_cons.mp distinct with ⟨fresh, distinct⟩
      apply Lawful.cons (ih distinct fun n mem => mine n (List.mem_cons_of_mem _ mem))
      rcases mine child List.mem_cons_self with ⟨parent, kept⟩
      apply Admissible.adopted i b child
      · exact (parentOf_adopts children).trans ((if_neg fresh).trans parent)
      · exact List.mem_append_right _ exited
      · exact fun waited => kept ((waited_adopts children).mp waited)

end Adoptions

/-- What `exit` passes on, by pids. -/
theorem adoptions_eq {me i : Fin slots} (initproc : m.initproc = some i) :
    adoptions m me =
      adopts slots (m.pid i)
        (((List.finRange slots).filter fun p => (m.proc p).parent = some me).map m.pid) := by
  unfold adoptions adopts
  rw [initproc, List.map_map]
  exact List.map_eq_flatMap.symm

/-- `exit` passes its children on. -/
theorem Machine.History.exit {me : Fin slots} (history : m.History) (numbered : m.Numbered)
    (kin : m.Kin) (exited : .exited (m.pid me) ∈ m.family)
    (proc : m'.proc = m.proc.exit me m.initproc) (nextpid : m'.nextpid = m.nextpid)
    (state : ∀ q, (m'.proc q).state ≠ .UNUSED → (m.proc q).state ≠ .UNUSED)
    (family : m'.family = adoptions m me ++ m.family) : m'.History := by
  rcases kin.initproc with ⟨i, initproc, alive⟩
  let children := ((List.finRange slots).filter fun p => (m.proc p).parent = some me).map m.pid
  have family : m'.family = adopts slots (m.pid i) children ++ m.family := by
    rw [family, adoptions_eq initproc]
  have pid (q : Fin slots) : m'.pid q = m.pid q := by
    unfold Machine.pid
    rw [proc, Table.exit_apply]
  have parent (q : Fin slots) : (m'.proc q).parent =
      if (m.proc q).parent = some me then some i else (m.proc q).parent := by
    rw [proc, Table.exit_apply, initproc]
  have used {q r : Fin slots} (child : (m.proc q).parent = some r) :
      (m.proc q).state ≠ .UNUSED := (kin.parent q r child).1
  have child_iff (q r : Fin slots) (child : (m.proc q).parent = some r) :
      m.pid q ∈ children ↔ (m.proc q).parent = some me := by
    constructor
    · intro mem
      rcases List.mem_map.mp mem with ⟨q', mem, same⟩
      have mine : (m.proc q').parent = some me := by
        simpa using (List.mem_filter.mp mem).2
      rwa [numbered.distinct q' q (used mine) (used child) same] at mine
    · intro mine
      exact List.mem_map.mpr
        ⟨q, List.mem_filter.mpr ⟨List.mem_finRange q, decide_eq_true mine⟩, rfl⟩
  have given (n : Nat) : parentOf m'.family n =
      if n ∈ children then some (m.pid i) else parentOf m.family n := by
    rw [family]
    exact parentOf_adopts children
  have waited (n : Nat) : Waited m'.family n ↔ Waited m.family n := by
    rw [family]
    exact waited_adopts children
  constructor
  · intro q r child
    rw [given, pid, pid]
    rw [parent] at child
    split at child
    · next mine =>
        cases child
        exact if_pos ((child_iff q me mine).mpr mine)
    · next other =>
        rw [if_neg fun mem => other ((child_iff q r child).mp mem)]
        exact history.link q r child
  · intro n a known
    rw [given] at known
    simp only [waited, pid, parent]
    split at known
    · next mem =>
        rcases List.mem_map.mp mem with ⟨q, child, rfl⟩
        have mine : (m.proc q).parent = some me := by
          simpa using (List.mem_filter.mp child).2
        exact Or.inr ⟨q, i, rfl, Option.some.inj known, if_pos mine⟩
    · next other =>
        rcases history.known n a known with before | ⟨q, r, rfl, same, child⟩
        · exact Or.inl before
        · refine Or.inr ⟨q, r, rfl, same, ?_⟩
          rw [if_neg fun mine => other ((child_iff q r child).mpr mine)]
          exact child
  · intro n before
    rw [nextpid]
    rcases history.gone n ((waited n).mp before) with ⟨old, absent⟩
    refine ⟨old, ?_⟩
    intro q used'
    rw [pid]
    exact absent q (state q used')
  · rw [family]
    apply history.lawful.adopts exited
    · apply List.Nodup.map_on
      · intro q mem q' mem' same
        have mine : (m.proc q).parent = some me := by
          simpa using (List.mem_filter.mp mem).2
        have mine' : (m.proc q').parent = some me := by
          simpa using (List.mem_filter.mp mem').2
        exact numbered.distinct q q' (used mine) (used mine') same
      · exact (List.nodup_finRange slots).filter _
    · intro n mem
      rcases List.mem_map.mp mem with ⟨q, child, rfl⟩
      have mine : (m.proc q).parent = some me := by
        simpa using (List.mem_filter.mp child).2
      refine ⟨history.link q me mine, ?_⟩
      intro before
      exact (history.gone _ before).2 q (used mine) rfl

/-! ## Runs -/

/-- `fork` returns the pid of a child. -/
theorem Machine.Courses.returnPid {me : Fin slots} (courses : m.Courses)
    (here : m.current c = some me) (code : m.code c = .returnPid p :: k) :
    (m.proc p).parent = some me := by
  rcases courses me _ (Or.inr ⟨c, executes_cons here code rfl⟩) with ⟨stage, at_⟩
  rcases at_.tracked.head with ⟨stage', may, -⟩
  cases stage with
  | returns q =>
      simp only [track, Stmt.returnPid.injEq] at may
      split at may <;> cases may
      next same =>
        subst same
        exact at_.knows.1
  | dead =>
      rcases at_.knows with ⟨_, _, never⟩
      cases never
  | resumed lk => cases lk <;> simp [track] at may
  | _ => simp [track] at may

namespace Machine.Descent

theorem history_step {a : Action slots} (descent : m.Descent) (kin : m.Kin)
    (courses : m.Courses) (ordered : m.Ordered phase) (numbered : m.Numbered)
    (step : exec c a m = some m') : m'.History := by
  have effect := exec_effect step
  have kin' := kin.step ordered step
  have history := descent.history
  have still (family : m'.family = m.family) (nextpid : m.nextpid ≤ m'.nextpid)
      (parent : ∀ p, (m'.proc p).parent = (m.proc p).parent) : m'.History :=
    history.still kin kin' ordered effect family nextpid parent
  cases effect with
  | quiet proc kept family =>
      exact still family kept.nextpid.ge fun p => (proc p).parent
  | alloc me p page k _ _ _ _ proc nextpid _ _ _ family =>
      refine still family (by omega) fun q => ?_
      rw [proc, Effect.alloc_parent]
  | discard p k _ proc nextpid _ _ _ family =>
      exact still family nextpid.ge fun q => Effect.write_parent proc rfl
  | ready p k _ proc kept family =>
      exact still family kept.nextpid.ge fun q => Effect.write_parent proc rfl
  | run p _ proc kept family =>
      exact still family kept.nextpid.ge fun q => Effect.write_parent proc rfl
  | leave me chan state stmt k _ _ _ proc kept family =>
      exact still family kept.nextpid.ge fun q => Effect.write_parent proc rfl
  | wakeup chan k _ proc kept family =>
      refine still family kept.nextpid.ge fun q => ?_
      rw [proc, Table.wakeup1_apply]
  | born me p k here code proc kept family =>
      have embryo := (ordered.embryo_of_stmt code (Or.inr (Or.inl rfl))).2
      exact history.born numbered kin (by simp [embryo])
        (kin.orphan c p (code ▸ .setParent k)) proc kept.nextpid family
  | forked me p k here code proc kept family =>
      exact history.note proc kept.nextpid family (fun _ => rfl) (by simp)
        (.forked _ _ (history.link p me (courses.returnPid here code)))
  | exiting me k here code _ _ proc kept family =>
      exact history.note proc kept.nextpid family (fun _ => rfl) (by simp) (.exited _)
  | exit me k here code proc kept family =>
      have exited := descent.exits me _ (Or.inr ⟨c, executes_cons here code rfl⟩) rfl
      refine history.exit numbered kin exited proc kept.nextpid ?_ family
      intro q used
      by_cases same : q = me
      · rw [same]
        exact ordered.used here
      · rcases Effect.exit_state m.proc me m.initproc same with state | ⟨asleep, _⟩
        · rwa [proc, state] at used
        · simp [asleep]
  | reap me p k here code found proc nextpid _ _ _ family =>
      exact history.reap numbered kin found (descent.zombie p (Table.zombie_state found).2)
        proc nextpid family
  | noChild me k here code childless proc kept family =>
      refine history.note proc kept.nextpid family (fun _ => rfl) (by simp) ?_
      apply Admissible.noChild
      intro n known
      rcases history.known n _ known with waited | ⟨q, r, _, same, child⟩
      · exact waited
      · have mine := numbered.distinct r me (kin.parent q r child).2.used
          (ordered.used here) same
        subst mine
        rcases childless with none | killed
        · rw [Table.havekids_iff.mpr ⟨q, child⟩] at none
          cases none
        · rw [descent.killed r] at killed
          cases killed

theorem step {a : Action slots} {phase' : Fin cpus → Phase slots} (descent : m.Descent)
    (kin : m.Kin) (courses : m.Courses) (ordered : m.Ordered phase) (numbered : m.Numbered)
    (ordered' : m'.Ordered phase') (step : exec c a m = some m') : m'.Descent where
  killed := (exec_effect step).killed descent.killed
  exits _ _ := descent.exits_step kin ordered ordered' step
  zombie _ := descent.zombie_step ordered (exec_effect step)
  history := descent.history_step kin courses ordered numbered step

end Machine.Descent

theorem Machine.Fresh.family (fresh : m.Fresh) : m.family = [] := by
  unfold Machine.family
  rw [fresh.events]
  rfl

theorem Machine.Fresh.descent (fresh : m.Fresh)
    (saved : ∀ p, (m.proc p).state = .UNUSED → m.context p = none) : m.Descent := by
  have family := fresh.family
  constructor
  · exact fresh.killed
  · intro p k there exits
    rw [(fresh.continues saved there).1] at exits
    cases exits
  · intro p zombie
    rcases fresh.used p with unused | new
    · rw [unused] at zombie
      cases zombie
    · rw [new.state] at zombie
      cases zombie
  · constructor
    · intro p q child
      rw [fresh.parent p] at child
      cases child
    · intro n a known
      rw [family] at known
      cases known
    · intro n waited
      rw [family] at waited
      rcases waited with ⟨_, never⟩
      cases never
    · rw [family]
      exact Lawful.nil

theorem Reachable.descent (reachable : Reachable m) : m.Descent := by
  induction reachable with
  | boot page idle booted => exact (main_fresh booted).1.descent (saved_of_main booted)
  | step before next ih =>
      have after := (before.step next).scheduled
      cases next with
      | exec c a effect =>
          rcases before.scheduled with ⟨phase, ordered⟩
          rcases after with ⟨phase', ordered'⟩
          exact ih.step before.kin before.courses ordered before.numbered ordered' effect

/--
In every run the births, exits and waits follow each other as those of a forest: a pid is
born once, `fork` returns the pid of a child of the caller, `exit` passes on the children of
a process that has exited, and `wait` returns a pid once, after that process has called
`exit` and to its parent at the time; it returns -1 only if every child of the caller has
been waited for.
-/
theorem exit_wait_lawful (reachable : Reachable m) : Lawful m.family :=
  reachable.descent.history.lawful

/--
The first process has a child and waits for it, and the child exits; the last of the
processors goes on with the first process.
-/
def childExits (a b c d : Fin cpus) : List (Fin cpus × Action slots) :=
  List.replicate 14 (a, .go) ++
    [(a, .trap .fork), (a, .go), (a, .kalloc (some 9)), (a, .go), (a, .copyuvm true),
      (a, .go), (a, .go), (a, .go), (a, .trap .wait)] ++
    List.replicate 5 (b, .go) ++ List.replicate 5 (c, .go) ++ List.replicate 5 (d, .go) ++
    List.replicate 13 (a, .go) ++ (a, .trap .exit) :: List.replicate 7 (a, .go) ++
    (d, .go) :: (d, .trap .timer) :: List.replicate 14 (d, .go)

/-- The wait of the first process returns the pid of its child. -/
theorem exit_wait_lawful_first :
    ∃ m : Machine 8 4, Reachable m ∧
      m.family = [.waited 1 5, .exited 5, .forked 1 5, .born 1 5] ∧ Lawful m.family := by
  have ends : ((main 8 4 1 fun i => i.val + 2).bind
      (execAll (childExits 0 1 2 3 ++ [(3, .go)]))).any
        fun m => m.family = [.waited 1 5, .exited 5, .forked 1 5, .born 1 5] := by
    decide
  rcases reachable_run ends with ⟨m, reachable, family⟩
  exact ⟨m, reachable, of_decide_eq_true family, exit_wait_lawful reachable⟩

end PiKernel.Ptable
