import PiKernel.Ptable.Descent

/-!
# The life of a slot

A slot goes through the states of a process in a fixed order, and the page of its kernel
stack is allocated while the slot is in use: no page is lost, and no two slots share one.
-/

namespace PiKernel.Ptable

open PiKernel.Conc
open PiKernel.Trap (ProcState)

variable
    {slots cpus : Nat}
    {m m' : Machine slots cpus}
    {phase : Fin cpus → Phase slots}
    {c : Fin cpus}
    {p q : Fin slots}

/-! ## Transitions -/

/-- The transitions of `enum procstate`. -/
inductive Life : ProcState → ProcState → Prop where
  | taken : Life .UNUSED .EMBRYO
  | dropped : Life .EMBRYO .UNUSED
  | ready : Life .EMBRYO .RUNNABLE
  | run : Life .RUNNABLE .RUNNING
  | yield : Life .RUNNING .RUNNABLE
  | sleep : Life .RUNNING .SLEEPING
  | wakeup : Life .SLEEPING .RUNNABLE
  | exit : Life .RUNNING .ZOMBIE
  | wait : Life .ZOMBIE .UNUSED

/-- The slot `p` is in another state, or none is. -/
theorem Effect.life (effect : Effect c m m') (ordered : m.Ordered phase) (q : Fin slots) :
    (m'.proc q).state = (m.proc q).state ∨ Life (m.proc q).state (m'.proc q).state := by
  cases effect.ofState ordered q with
  | same state => exact Or.inl state
  | taken before after =>
      rw [before, after]
      exact Or.inr .taken
  | dropped before after =>
      rw [before, after]
      exact Or.inr .dropped
  | ready before after =>
      rw [before, after]
      exact Or.inr .ready
  | died before after here k code passed =>
      rw [after, ordered.running_of_locked here (ordered.locked_of_stmt code (Or.inl rfl))]
      exact Or.inr .exit
  | reaped before after =>
      rw [before, after]
      exact Or.inr .wait
  | alive before after =>
      cases effect with
      | quiet proc _ _ => exact Or.inl (proc q).state
      | alloc me p page k here code unused _ proc _ _ _ _ _ =>
          have other : q ≠ p := by
            rintro rfl
            exact before.used unused
          rw [proc, Machine.Ordered.alloc_other page m.nextpid other]
          exact Or.inl rfl
      | discard p k code proc _ _ _ _ _ =>
          rw [write_state proc]
          split
          · next same =>
              subst same
              exact absurd (ordered.embryo_of_stmt code (Or.inl rfl)).2 before.not_embryo
          · exact Or.inl rfl
      | born me p k _ _ proc _ _ =>
          rw [write_state proc]
          split
          · next same =>
              subst same
              exact Or.inl rfl
          · exact Or.inl rfl
      | ready p k code proc _ _ =>
          rw [write_state proc]
          split
          · next same =>
              subst same
              exact absurd (ordered.embryo_of_stmt code (Or.inr (Or.inr rfl))).2
                before.not_embryo
          · exact Or.inl rfl
      | forked me p k _ _ proc _ _ | noChild me k _ _ _ proc _ _ =>
          rw [proc]
          exact Or.inl rfl
      | exiting me k _ _ _ _ proc _ _ =>
          rw [proc]
          exact Or.inl rfl
      | run p runnable proc _ _ =>
          rw [write_state proc]
          split
          · next same =>
              subst same
              rw [runnable]
              exact Or.inr .run
          · exact Or.inl rfl
      | leave me chan state stmt k here code leaves proc _ _ =>
          rw [write_state proc]
          split
          · next same =>
              subst same
              have locked : phase c = .locked := by
                apply ordered.locked_of_stmt code
                rcases leaves with ⟨_, rfl⟩ | ⟨_, rfl⟩ <;> simp
              rw [ordered.running_of_locked here locked]
              rcases leaves with ⟨rfl, _⟩ | ⟨rfl, _⟩
              · exact Or.inr .sleep
              · exact Or.inr .yield
          · exact Or.inl rfl
      | wakeup chan k _ proc _ _ =>
          rw [proc]
          rcases wakeup1_state m.proc chan (q := q) with same | ⟨asleep, awake⟩
          · exact Or.inl same
          · rw [asleep, awake]
            exact Or.inr .wakeup
      | exit me k here code proc _ _ =>
          have other : q ≠ me := by
            rintro rfl
            apply after.not_zombie
            rw [proc, Table.exit_apply]
            exact if_pos rfl
          rw [proc]
          rcases exit_state m.proc me m.initproc other with same | ⟨asleep, awake⟩
          · exact Or.inl same
          · rw [asleep, awake]
            exact Or.inr .wakeup
      | reap me p k _ _ found proc _ _ _ _ _ =>
          have other : q ≠ p := by
            rintro rfl
            exact before.not_zombie (Table.zombie_state found).2
          rw [proc, reap_other m.proc other]
          exact Or.inl rfl

/--
The parent of a zombie executes `wait`, which takes the slot back and frees the page of its
kernel stack, and no other.
-/
structure Reaps (c : Fin cpus) (m m' : Machine slots cpus) (p : Fin slots) : Prop where
  waits : ∃ me k, m.current c = some me ∧ m.code c = .wait :: k ∧
    (m.proc p).parent = some me ∧
      m'.family = .waited (m.pid me) (m.pid p) :: m.family
  given : (m'.proc p).state = .UNUSED
  freed : ∃ page, (m.proc p).kstack = some page ∧ m.stack page ∧
    m'.stack = Function.update m.stack page false

/-! ## Kernel stacks -/

/-- The pages that are allocated for kernel stacks are those of the slots in use. -/
structure Machine.Stacked (m : Machine slots cpus) : Prop where
  owner : ∀ p, (m.proc p).state ≠ .UNUSED →
    ∃ page, (m.proc p).kstack = some page ∧ m.stack page
  distinct : ∀ p q, (m.proc p).state ≠ .UNUSED → (m.proc q).state ≠ .UNUSED →
    (m.proc p).kstack = (m.proc q).kstack → p = q
  kept : ∀ page, m.stack page →
    ∃ p, (m.proc p).state ≠ .UNUSED ∧ (m.proc p).kstack = some page

namespace Machine.Stacked

/-- No slot is taken or given up. -/
theorem still (stacked : m.Stacked)
    (used : ∀ p, (m'.proc p).state = .UNUSED ↔ (m.proc p).state = .UNUSED)
    (kstack : ∀ p, (m.proc p).state ≠ .UNUSED → (m'.proc p).kstack = (m.proc p).kstack)
    (stack : m'.stack = m.stack) : m'.Stacked := by
  have before {p : Fin slots} (now : (m'.proc p).state ≠ .UNUSED) :
      (m.proc p).state ≠ .UNUSED := fun unused => now ((used p).mpr unused)
  constructor
  · intro p now
    rw [kstack p (before now), stack]
    exact stacked.owner p (before now)
  · intro p q now now' equal
    rw [kstack p (before now), kstack q (before now')] at equal
    exact stacked.distinct p q (before now) (before now') equal
  · intro page allocated
    rw [stack] at allocated
    rcases stacked.kept page allocated with ⟨p, now, mine⟩
    exact ⟨p, fun unused => now ((used p).mp unused), (kstack p now).trans mine⟩

/-- A slot is taken, with a page that is free. -/
theorem take {page : Nat} (stacked : m.Stacked) (unused : (m.proc p).state = .UNUSED)
    (free : m.stack page = false) (used : (m'.proc p).state ≠ .UNUSED)
    (kstack : (m'.proc p).kstack = some page) (other : ∀ q, q ≠ p → m'.proc q = m.proc q)
    (stack : m'.stack = Function.update m.stack page true) : m'.Stacked := by
  have old {q : Fin slots} (away : q ≠ p) (now : (m'.proc q).state ≠ .UNUSED) :
      (m.proc q).state ≠ .UNUSED := by rwa [other q away] at now
  have apart {q : Fin slots} (away : q ≠ p) (now : (m'.proc q).state ≠ .UNUSED) :
      (m'.proc q).kstack ≠ (m'.proc p).kstack := by
    rcases stacked.owner q (old away now) with ⟨page', mine, allocated⟩
    rw [other q away, mine, kstack]
    intro same
    cases same
    rw [free] at allocated
    cases allocated
  constructor
  · intro q now
    by_cases same : q = p
    · subst same
      refine ⟨page, kstack, ?_⟩
      rw [stack, Function.update_self]
    · rcases stacked.owner q (old same now) with ⟨page', mine, allocated⟩
      refine ⟨page', by rw [other q same, mine], ?_⟩
      rw [stack, Function.update_apply]
      split
      · rfl
      · exact allocated
  · intro q r now now' equal
    by_cases same : q = p
    · by_cases same' : r = p
      · rw [same, same']
      · rw [same] at equal
        exact absurd equal.symm (apart same' now')
    · by_cases same' : r = p
      · rw [same'] at equal
        exact absurd equal (apart same now)
      · rw [other q same, other r same'] at equal
        exact stacked.distinct q r (old same now) (old same' now') equal
  · intro page' allocated
    rw [stack, Function.update_apply] at allocated
    split at allocated
    · next same => exact ⟨p, used, by rw [kstack, same]⟩
    · rcases stacked.kept page' allocated with ⟨q, now, mine⟩
      have away : q ≠ p := by
        rintro rfl
        exact now unused
      exact ⟨q, by rwa [other q away], by rw [other q away, mine]⟩

/-- A slot is given up, and its page is freed. -/
theorem drop (stacked : m.Stacked) (used : (m.proc p).state ≠ .UNUSED)
    (unused : (m'.proc p).state = .UNUSED) (other : ∀ q, q ≠ p → m'.proc q = m.proc q)
    (stack : ∀ page, m'.stack page =
      (m.stack page && decide ((m.proc p).kstack ≠ some page))) : m'.Stacked := by
  have away {q : Fin slots} (now : (m'.proc q).state ≠ .UNUSED) : q ≠ p := by
    rintro rfl
    exact now unused
  have old {q : Fin slots} (now : (m'.proc q).state ≠ .UNUSED) :
      (m.proc q).state ≠ .UNUSED := by rwa [other q (away now)] at now
  constructor
  · intro q now
    rcases stacked.owner q (old now) with ⟨page, mine, allocated⟩
    refine ⟨page, by rw [other q (away now), mine], ?_⟩
    rw [stack, allocated, Bool.true_and, decide_eq_true_eq]
    intro same
    exact away now (stacked.distinct q p (old now) used (mine.trans same.symm))
  · intro q r now now' equal
    rw [other q (away now), other r (away now')] at equal
    exact stacked.distinct q r (old now) (old now') equal
  · intro page allocated
    rw [stack, Bool.and_eq_true, decide_eq_true_eq] at allocated
    rcases stacked.kept page allocated.1 with ⟨q, now, mine⟩
    have away : q ≠ p := by
      rintro rfl
      exact allocated.2 mine
    exact ⟨q, by rwa [other q away], by rw [other q away, mine]⟩

end Machine.Stacked

namespace Machine.Stacked

theorem step (stacked : m.Stacked) (ordered : m.Ordered phase) (effect : Effect c m m') :
    m'.Stacked := by
  -- a slot that is in use is written, and stays in use
  have written {p : Fin slots} {proc : Proc slots} (used : (m.proc p).state ≠ .UNUSED)
      (proc' : m'.proc = Function.update m.proc p proc) (used' : proc.state ≠ .UNUSED)
      (kstack : proc.kstack = (m.proc p).kstack) (stack : m'.stack = m.stack) :
      m'.Stacked := by
    apply stacked.still ?_ ?_ stack <;> intro q <;> rw [proc'] <;> by_cases same : q = p
    · subst same
      rw [Function.update_self]
      exact iff_of_false used' used
    · rw [Function.update_of_ne same]
    · subst same
      rw [Function.update_self]
      exact fun _ => kstack
    · rw [Function.update_of_ne same]
      exact fun _ => rfl
  cases effect with
  | quiet proc kept _ =>
      apply stacked.still ?_ (fun p => (proc p).kstack) kept.stack
      intro p
      rw [(proc p).state]
  | alloc me p page k _ _ unused room proc _ _ _ stack _ =>
      apply stacked.take unused room.1 ?_ ?_ ?_ stack
      · simp [proc, Machine.Ordered.alloc_state]
      · rw [proc]
        exact congrArg Proc.kstack (Function.update_self p _ m.proc)
      · intro q other
        rw [proc, Machine.Ordered.alloc_other page m.nextpid other]
  | discard p k code proc _ _ _ stack _ =>
      have embryo := (ordered.embryo_of_stmt code (Or.inl rfl)).2
      apply stacked.drop (by simp [embryo]) ?_ ?_ stack
      · rw [proc, Function.update_self]
      · intro q other
        rw [proc, Function.update_of_ne other]
  | born me p k _ code proc kept _ =>
      have embryo := (ordered.embryo_of_stmt code (Or.inr (Or.inl rfl))).2
      exact written (by simp [embryo]) proc (by simp [embryo]) rfl kept.stack
  | ready p k code proc kept _ =>
      have embryo := (ordered.embryo_of_stmt code (Or.inr (Or.inr rfl))).2
      exact written (by simp [embryo]) proc (by simp) rfl kept.stack
  | forked me p k _ _ proc kept _ | noChild me k _ _ _ proc kept _ =>
      exact stacked.still (by simp [proc]) (by simp [proc]) kept.stack
  | exiting me k _ _ _ _ proc kept _ =>
      exact stacked.still (by simp [proc]) (by simp [proc]) kept.stack
  | run p runnable proc kept _ =>
      exact written (by simp [runnable]) proc (by simp) rfl kept.stack
  | leave me chan state stmt k here _ leaves proc kept _ =>
      apply written (ordered.used here) proc ?_ rfl kept.stack
      rcases leaves with ⟨rfl, _⟩ | ⟨rfl, _⟩ <;> simp
  | wakeup chan k _ proc kept _ =>
      apply stacked.still ?_ ?_ kept.stack <;> intro q <;> rw [proc]
      · rcases Effect.wakeup1_state m.proc chan (q := q) with same | ⟨asleep, awake⟩
        · rw [same]
        · rw [asleep, awake]
          simp
      · rw [Table.wakeup1_apply]
        exact fun _ => rfl
  | exit me k here _ proc kept _ =>
      apply stacked.still ?_ ?_ kept.stack <;> intro q <;> rw [proc]
      · by_cases same : q = me
        · subst same
          rw [Table.exit_apply]
          simp [ordered.used here]
        · rcases Effect.exit_state m.proc me m.initproc same with same | ⟨asleep, awake⟩
          · rw [same]
          · rw [asleep, awake]
            simp
      · rw [Table.exit_apply]
        exact fun _ => rfl
  | reap me p k _ _ found proc _ _ _ stack _ =>
      apply stacked.drop (by simp [(Table.zombie_state found).2]) ?_ ?_ stack
      · rw [proc, Effect.reap_here]
      · intro q other
        rw [proc, Effect.reap_other m.proc other]

theorem zeroed : (Ptable.zeroed slots cpus).Stacked where
  owner _ used := absurd rfl used
  distinct _ _ used := absurd rfl used
  kept _ never := by cases never

theorem created {program : Program} {page : Nat} (stacked : m.Stacked)
    (created : initProcess program page m = some m') : m'.Stacked := by
  rcases Fresh.created_of_initProcess created with ⟨p, unused, room, here, other, rest⟩
  apply stacked.take unused room.1 ?_ ?_ other ?_
  · simp [here]
  · rw [here]
  · rw [rest]

theorem booted {page : Nat} {idle : Fin 3 → Nat}
    (booted : main slots cpus page idle = some m) : m.Stacked := by
  unfold main at booted
  rcases Option.bind_eq_some_iff.mp booted with ⟨m₁, first, loop⟩
  change (user_idle_init (idle 0) m₁).bind (fun m₂ =>
    (user_idle_init (idle 1) m₂).bind fun m₃ =>
      (user_idle_init (idle 2) m₃).bind some) = some m at loop
  rcases Option.bind_eq_some_iff.mp loop with ⟨m₂, second, loop⟩
  rcases Option.bind_eq_some_iff.mp loop with ⟨m₃, third, loop⟩
  rcases Option.bind_eq_some_iff.mp loop with ⟨m₄, fourth, loop⟩
  cases loop
  exact (((zeroed.created first).created second).created third).created fourth

end Machine.Stacked

theorem Reachable.stacked (reachable : Reachable m) : m.Stacked := by
  induction reachable with
  | boot page idle booted => exact .booted booted
  | step before next ih =>
      cases next with
      | exec c a effect =>
          rcases before.scheduled with ⟨phase, ordered⟩
          exact ih.step ordered (exec_effect effect)

/-- A slot leaves the state `ZOMBIE` only when its parent waits. -/
theorem Reachable.reaps (reachable : Reachable m) {a : Action slots}
    (step : exec c a m = some m') (zombie : (m.proc p).state = .ZOMBIE)
    (ended : (m'.proc p).state ≠ .ZOMBIE) : Reaps c m m' p := by
  rcases reachable.scheduled with ⟨phase, ordered⟩
  cases (exec_effect step).ofState ordered p with
  | same state => exact absurd (state.trans zombie) ended
  | alive before _ => exact absurd zombie before.not_zombie
  | died before _ _ _ _ _ => exact absurd zombie before.not_zombie
  | taken before _ | dropped before _ | ready before _ =>
      rw [before] at zombie
      cases zombie
  | reaped _ after me k here code found _ stack family =>
      refine ⟨⟨me, k, here, code, (Table.zombie_state found).1, family⟩, after, ?_⟩
      rcases reachable.stacked.owner p (by simp [zombie]) with ⟨page, mine, allocated⟩
      refine ⟨page, mine, allocated, ?_⟩
      funext page'
      rw [stack, mine, Function.update_apply]
      split
      · next same => simp [same]
      · next other => simp [Ne.symm other]

/--
In every state of every run the pages allocated for kernel stacks are those of the slots in
use, one each; every step takes every slot along one transition of its life, if any; and a
step that ends a zombie is the `wait` of its parent.
-/
theorem slots_live (reachable : Reachable m) :
    (∀ page, m.stack page ↔
      ∃! p, (m.proc p).state ≠ .UNUSED ∧ (m.proc p).kstack = some page) ∧
    (∀ p, (m.proc p).state ≠ .UNUSED → ∃ page, (m.proc p).kstack = some page) ∧
      (∀ m', Step m m' → ∀ p,
        (m'.proc p).state = (m.proc p).state ∨ Life (m.proc p).state (m'.proc p).state) ∧
        ∀ c a m', exec c a m = some m' → ∀ p, (m.proc p).state = .ZOMBIE →
          (m'.proc p).state ≠ .ZOMBIE → Reaps c m m' p := by
  have stacked := reachable.stacked
  refine ⟨?_, ?_, ?_, fun _ _ _ step _ zombie ended => reachable.reaps step zombie ended⟩
  · intro page
    constructor
    · intro allocated
      rcases stacked.kept page allocated with ⟨p, used, mine⟩
      refine ⟨p, ⟨used, mine⟩, ?_⟩
      rintro q ⟨used', mine'⟩
      exact stacked.distinct q p used' used (mine'.trans mine.symm)
    · rintro ⟨p, ⟨used, mine⟩, _⟩
      rcases stacked.owner p used with ⟨page', mine', allocated⟩
      rw [mine] at mine'
      cases mine'
      exact allocated
  · intro p used
    rcases stacked.owner p used with ⟨page, mine, _⟩
    exact ⟨page, mine⟩
  · intro m' next p
    cases next with
    | exec c a effect =>
        rcases reachable.scheduled with ⟨phase, ordered⟩
        exact (exec_effect effect).life ordered p

/-- The child of the first process is a zombie, and is reaped. -/
theorem slots_live_first :
    ∃ m m' : Machine 8 4, Reachable m ∧ (m.proc 4).state = .ZOMBIE ∧
      (∃! p, (m.proc p).state ≠ .UNUSED ∧ (m.proc p).kstack = some 9) ∧ Reaps 3 m m' 4 := by
  have ends : ((main 8 4 1 fun i => i.val + 2).bind (execAll (childExits 0 1 2 3))).any
      fun m => m.stack 9 ∧ (m.proc 4).state = .ZOMBIE ∧
        (exec 3 .go m).any fun m' => (m'.proc 4).state ≠ .ZOMBIE := by
    decide
  rcases reachable_run ends with ⟨m, reachable, tested⟩
  rcases of_decide_eq_true tested with ⟨stack, zombie, next⟩
  rcases (Option.any_eq_true _ _).mp next with ⟨m', step, ended⟩
  have holds := slots_live reachable
  exact ⟨m, m', reachable, zombie, (holds.1 9).mp stack,
    holds.2.2.2 3 .go m' step 4 zombie (of_decide_eq_true ended)⟩

/-! ## `exit` and `wait` -/

/--
The protocol of `exit` and `wait`: a pid is waited for once, after its process has called
`exit` and by its parent at the time, and -1 is returned only for want of children; a
zombie ends only so, with its kernel stack freed once; and nobody sleeps in `wait` who has
a zombie child, its own or passed on to it.
-/
theorem exit_wait_protocol (reachable : Reachable m) :
    Lawful m.family ∧
      (∀ c a m', exec c a m = some m' → ∀ p, (m.proc p).state = .ZOMBIE →
        (m'.proc p).state ≠ .ZOMBIE → Reaps c m m' p) ∧
        ∀ p, m.SleepsInWait p → m.Childless p :=
  ⟨reachable.descent.history.lawful,
    fun _ _ _ step _ zombie ended => reachable.reaps step zombie ended,
    fun _ sleeps => (reachable.courses.sleepsInWait sleeps).2⟩

/-- The child of the first process has exited, and its parent is about to wait for it. -/
theorem exit_wait_protocol_childExits :
    ∃ m m' : Machine 8 4, Reachable m ∧ Lawful m.family ∧
      m.family = [.exited 5, .forked 1 5, .born 1 5] ∧ Reaps 3 m m' 4 := by
  have ends : ((main 8 4 1 fun i => i.val + 2).bind (execAll (childExits 0 1 2 3))).any
      fun m => m.family = [.exited 5, .forked 1 5, .born 1 5] ∧
        (m.proc 4).state = .ZOMBIE ∧
        (exec 3 .go m).any fun m' => (m'.proc 4).state ≠ .ZOMBIE := by
    decide
  rcases reachable_run ends with ⟨m, reachable, tested⟩
  rcases of_decide_eq_true tested with ⟨family, zombie, next⟩
  rcases (Option.any_eq_true _ _).mp next with ⟨m', step, ended⟩
  have holds := exit_wait_protocol reachable
  exact ⟨m, m', reachable, holds.1, family,
    holds.2.1 3 .go m' step 4 zombie (of_decide_eq_true ended)⟩

end PiKernel.Ptable
