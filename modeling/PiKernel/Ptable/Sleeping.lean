import PiKernel.Ptable.Course

/-!
# Sleep-locks, and sleeping in `wait`

A sleep-lock has at most one owner, which `locked` and `pid` describe.  Nobody sleeps on a
lock that is free, and nobody sleeps in `wait` who has a zombie child.
-/

namespace PiKernel.Ptable

open PiKernel.Conc
open PiKernel.Trap (ProcState)

variable
    {slots cpus : Nat}
    {m m' : Machine slots cpus}
    {phase : Fin cpus → Phase slots}
    {c : Fin cpus}
    {k rest : Code slots}
    {p q : Fin slots}

namespace Machine

/-! ## The owner of a sleep-lock -/

/-- `locked` and `pid` describe the process that has taken the sleep-lock, if any has. -/
def Owned (m : Machine slots cpus) (l : Nat) : Prop :=
  (m.sleeplock l).locked = true ∧ m.between l = [(m.sleeplock l).pid] ∨
    (m.sleeplock l).locked = false ∧ m.between l = []

theorem Owned.locked {l n : Nat} (owned : m.Owned l) (mem : n ∈ m.between l) :
    m.between l = [n] := by
  rcases owned with ⟨_, one⟩ | ⟨_, none⟩
  · rw [one, List.mem_singleton] at mem
    rw [one, mem]
  · rw [none] at mem
    cases mem

theorem Owned.free {l : Nat} (owned : m.Owned l) (free : (m.sleeplock l).locked = false) :
    m.between l = [] := by
  rcases owned with ⟨locked, _⟩ | ⟨_, none⟩
  · rw [free] at locked
    cases locked
  · exact none

theorem Owned.step {a : Action slots} (owned : ∀ l, m.Owned l) (courses : m.Courses)
    (step : exec c a m = some m') (l : Nat) : m'.Owned l := by
  unfold Owned
  cases exec_ofLock step with
  | same sleeplock between =>
      rw [sleeplock, between]
      exact owned l
  | taken l' me k _ _ free sleeplock between =>
      rw [sleeplock, between]
      by_cases same : l = l'
      · subst same
        rw [Function.update_self, Function.update_self, (owned l).free free]
        exact Or.inl ⟨rfl, rfl⟩
      · rw [Function.update_of_ne same, Function.update_of_ne same]
        exact owned l
  | given l' me k here code sleeplock between =>
      rw [sleeplock, between]
      by_cases same : l = l'
      · subst same
        have mine := (courses.unlock here code).1
        rw [Function.update_self, Function.update_self, (owned l).locked mine,
          List.erase_cons_head]
        exact Or.inr ⟨rfl, rfl⟩
      · rw [Function.update_of_ne same, Function.update_of_ne same]
        exact owned l

/-! ## What sleeps -/

/-- After `p->chan = 0` a process has slept. -/
theorem At.clearChan {stage : Stage slots} (at_ : m.At p (.clearChan :: k) stage) :
    ∃ chan lk, stage = .asleep chan lk ∧ Tracked p (.woken lk) k := by
  rcases at_.tracked.head with ⟨stage', may, follows⟩
  cases stage with
  | asleep chan lk =>
      simp only [track, reduceCtorEq, if_false, if_true, Option.some.injEq] at may
      subst may
      exact ⟨chan, lk, rfl, follows⟩
  | dead =>
      rcases at_.knows with ⟨_, _, never⟩
      cases never
  | resumed lk => cases lk <;> simp [track] at may
  | _ => simp [track] at may

theorem tracked_slept {lk lk' : Lock}
    (tracked : Tracked p (.woken lk) (.slept lk' :: k)) : lk = .ptable := by
  rcases tracked.head with ⟨stage, may, _⟩
  simp only [track, reduceCtorEq, false_and, if_false] at may
  split at may
  · next same => exact same.2
  · cases may

/-- A process sleeps in `wait`. -/
def SleepsInWait (m : Machine slots cpus) (p : Fin slots) : Prop :=
  (m.proc p).state = .SLEEPING ∧ ∃ k, m.Continues p (.clearChan :: .slept .ptable :: k)

theorem Courses.sleepsInWait (courses : m.Courses) (sleeps : m.SleepsInWait p) :
    (m.proc p).chan = some (.proc p) ∧ m.Childless p := by
  rcases sleeps with ⟨state, k, there⟩
  rcases courses p _ there with ⟨stage, at_⟩
  rcases at_.clearChan with ⟨chan, lk, rfl, follows⟩
  cases tracked_slept follows
  rcases at_.knows with ⟨fits, knows⟩
  rcases knows state with ⟨same, reason⟩
  exact ⟨same.trans fits, reason⟩

end Machine

theorem Reachable.owned (reachable : Reachable m) (l : Nat) : m.Owned l := by
  induction reachable generalizing l with
  | boot page idle booted =>
      rcases main_fresh booted with ⟨fresh, _⟩
      refine Or.inr ⟨?_, fresh.between l⟩
      rw [fresh.sleeplock l]
  | step before next ih =>
      cases next with
      | exec c a effect => exact Machine.Owned.step ih before.courses effect l

/-- A run from `main` on, whose last state is tested. -/
theorem reachable_run {page : Nat} {idle : Fin 3 → Nat} {steps : List (Fin cpus × Action slots)}
    {test : Machine slots cpus → Bool}
    (ends : ((main slots cpus page idle).bind (execAll steps)).any test) :
    ∃ m, Reachable m ∧ test m := by
  rcases (Option.any_eq_true _ _).mp ends with ⟨m, ends, tested⟩
  rcases Option.bind_eq_some_iff.mp ends with ⟨m₀, booted, ends⟩
  exact ⟨m, (Reachable.boot _ _ booted).execAll _ ends, tested⟩

/--
In every state of every run a process that sleeps in `wait` has no child that is a zombie,
whether it is its own or was passed on to it, and a step that gives it one wakes it up.
-/
theorem wait_sleeps (reachable : Reachable m) {p : Fin slots} (sleeps : m.SleepsInWait p) :
    m.Childless p ∧
      ∀ m', Step m m' → ¬ m'.Childless p → (m'.proc p).state ≠ .SLEEPING := by
  rcases reachable.courses.sleepsInWait sleeps with ⟨chan, childless⟩
  refine ⟨childless, ?_⟩
  intro m' next zombie state
  cases next with
  | exec c a effect =>
      rcases reachable.scheduled with ⟨phase, ordered⟩
      exact zombie (childless.asleep reachable.kin ordered effect sleeps.1 chan state)

/-- The first process has a child, and waits. -/
theorem wait_sleeps_first :
    ∃ m : Machine 64 4, Reachable m ∧ (m.proc 4).parent = some 0 ∧ m.Childless 0 := by
  have ends : ((main 64 4 1 fun i => i.val + 2).bind
      (execAll (List.replicate 14 (0, .go) ++
        [(0, .trap .fork), (0, .go), (0, .kalloc (some 5)), (0, .go), (0, .copyuvm true),
          (0, .go), (0, .go), (0, .go), (0, .trap .wait)] ++ List.replicate 5 (0, .go)))).any
        fun m => (m.proc 4).parent = some 0 ∧ (m.proc 0).state = .SLEEPING ∧
          m.context 0 = some [.clearChan, .slept .ptable, .wait, .user] := by
    decide
  rcases reachable_run ends with ⟨m, reachable, tested⟩
  simp only [decide_eq_true_eq] at tested
  rcases tested with ⟨parent, state, saved⟩
  exact ⟨m, reachable, parent, (wait_sleeps reachable ⟨state, _, Or.inl saved⟩).1⟩

end PiKernel.Ptable
