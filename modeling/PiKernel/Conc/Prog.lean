import Mathlib.Logic.Function.Basic
import Mathlib.Logic.Relation

/-!
# Programs of atomic actions

Kernel code runs as a sequence of atomic actions: one critical section of a
spinlock, one attempt to take a sleep-lock, one access to memory which the
caller owns.  `Prog` is the syntax of such code.  A `System` gives every
action its effect on the shared state and says which programs an idle process
may start.

Two executions are derived from the same syntax.  `Step` interleaves the
actions of all processes in any order.  `Visits` and `Completes` run one
program alone, which is what crash and sequential arguments need.
-/

namespace PiKernel.Conc

universe u

/-- A program is a tree of atomic actions; a panic never continues. -/
inductive Prog (Act : Type → Type) (α : Type) : Type 1 where
  | ret (value : α)
  | act {β : Type} (action : Act β) (next : β → Prog Act α)
  | panic (message : String)

namespace Prog

variable {Act Low : Type → Type} {α β γ : Type}

/-- Sequential composition. -/
def bind : Prog Act α → (α → Prog Act β) → Prog Act β
  | .ret value, next => next value
  | .act action rest, next =>
      .act action fun result => (rest result).bind next
  | .panic message, _ => .panic message

/-- One atomic action, returning its result. -/
def perform (action : Act β) : Prog Act β :=
  .act action .ret

instance : Monad (Prog Act) where
  pure := .ret
  bind := Prog.bind

@[simp]
theorem pure_eq (value : α) :
    (pure value : Prog Act α) = .ret value :=
  rfl

@[simp]
theorem ret_bind (value : α) (next : α → Prog Act β) :
    (Prog.ret value >>= next) = next value :=
  rfl

@[simp]
theorem act_bind (action : Act γ) (rest : γ → Prog Act α)
    (next : α → Prog Act β) :
    (Prog.act action rest >>= next) =
      .act action fun result => rest result >>= next :=
  rfl

@[simp]
theorem panic_bind (message : String) (next : α → Prog Act β) :
    ((Prog.panic message : Prog Act α) >>= next) = .panic message :=
  rfl

@[simp]
theorem perform_bind (action : Act γ) (next : γ → Prog Act β) :
    (perform action >>= next) = .act action next :=
  rfl

theorem bind_ret (program : Prog Act α) :
    program >>= Prog.ret = program := by
  induction program with
  | ret value => rfl
  | act action rest ih =>
      rw [act_bind]
      exact congrArg _ (funext ih)
  | panic message => rfl

theorem bind_assoc (program : Prog Act α)
    (first : α → Prog Act β) (second : β → Prog Act γ) :
    (program >>= first) >>= second =
      program >>= fun value => first value >>= second := by
  induction program with
  | ret value => rfl
  | act action rest ih =>
      simp only [act_bind]
      exact congrArg _ (funext ih)
  | panic message => rfl

instance : LawfulMonad (Prog Act) :=
  LawfulMonad.mk' _ bind_ret (fun _ _ => rfl) bind_assoc

/-- Replace every action by a program over a lower layer. -/
def expand (body : {β : Type} → Act β → Prog Low β) :
    Prog Act α → Prog Low α
  | .ret value => .ret value
  | .act action rest => (body action).bind fun result => (rest result).expand body
  | .panic message => .panic message

/-- Every action of the program is of the given kind, and it never panics. -/
def All (kind : {β : Type} → Act β → Prop) : Prog Act α → Prop
  | .ret _ => True
  | .act action next => kind action ∧ ∀ value, (next value).All kind
  | .panic _ => False

theorem All.bind {kind : {β : Type} → Act β → Prop} {program : Prog Act α}
    {next : α → Prog Act β}
    (first : program.All kind) (second : ∀ value, (next value).All kind) :
    (program >>= next).All kind := by
  induction program with
  | ret value => exact second value
  | act action rest ih => exact ⟨first.1, fun value => ih value (first.2 value)⟩
  | panic message => exact first.elim

theorem All.forM {kind : {β : Type} → Act β → Prop} {ι : Type}
    {body : ι → Prog Act PUnit} (items : List ι)
    (each : ∀ item, (body item).All kind) :
    (items.forM body).All kind := by
  induction items with
  | nil => trivial
  | cons item rest ih =>
      change (body item >>= fun _ => rest.forM body).All kind
      exact (each item).bind fun _ => ih

end Prog

/--
The effect of one action.  `again` is a process that goes to sleep inside the
action and repeats it when it runs again; `blocked` is an action that cannot
be taken in this state.
-/
inductive Outcome (β σ : Type) where
  | done (value : β) (state : σ)
  | again (state : σ)
  | blocked

/-- The outcome of an action on a part of the state. -/
def Outcome.map {β σ τ : Type} (whole : σ → τ) : Outcome β σ → Outcome β τ
  | .done value state => .done value (whole state)
  | .again state => .again (whole state)
  | .blocked => .blocked

theorem Outcome.map_again {β σ τ : Type} {whole : σ → τ} {outcome : Outcome β σ} {after : τ}
    (effect : outcome.map whole = .again after) :
    ∃ state, outcome = .again state := by
  cases outcome with
  | done value state => cases effect
  | again state => exact ⟨state, rfl⟩
  | blocked => cases effect

/-- An action of one of two kinds. -/
inductive Either (Left Right : Type → Type) (β : Type) : Type where
  | left (action : Left β)
  | right (action : Right β)

/-- A program of the left kind of actions among those of two kinds. -/
def Prog.left {Left Right : Type → Type} {α : Type} (program : Prog Left α) :
    Prog (Either Left Right) α :=
  program.expand fun action => .perform (.left action)

/-- The effect of every action, and the programs which a process may start. -/
structure System (Act : Type → Type) (Pid σ : Type) where
  exec : {β : Type} → Act β → Pid → σ → Outcome β σ
  task : σ → Pid → Prog Act Unit → Prop

/-- The shared state and what is left of every process's program. -/
structure Config (Act : Type → Type) (Pid σ : Type) where
  shared : σ
  prog : Pid → Prog Act Unit

namespace System

variable
    {Act : Type → Type}
    {Pid σ α β : Type}
    (sys : System Act Pid σ)

/-! ## Interleaved execution -/

/-- One step of one process, chosen freely. -/
inductive Step [DecidableEq Pid] :
    Config Act Pid σ → Config Act Pid σ → Prop where
  | start {config : Config Act Pid σ} {p : Pid} {program : Prog Act Unit}
      (idle : config.prog p = .ret ())
      (permitted : sys.task config.shared p program) :
      Step config
        ⟨config.shared, Function.update config.prog p program⟩
  | done {config : Config Act Pid σ} {p : Pid} {β : Type}
      {action : Act β} {next : β → Prog Act Unit} {value : β} {state : σ}
      (current : config.prog p = .act action next)
      (effect : sys.exec action p config.shared = .done value state) :
      Step config
        ⟨state, Function.update config.prog p (next value)⟩
  | again {config : Config Act Pid σ} {p : Pid} {β : Type}
      {action : Act β} {next : β → Prog Act Unit} {state : σ}
      (current : config.prog p = .act action next)
      (effect : sys.exec action p config.shared = .again state) :
      Step config ⟨state, config.prog⟩

/-- The configurations of all runs that start in `initial`. -/
def Reachable [DecidableEq Pid]
    (initial config : Config Act Pid σ) : Prop :=
  Relation.ReflTransGen sys.Step initial config

/-! ## One program running alone -/

/-- `Visits p program s rest t`: running alone, `program` gets from `s` to `t`. -/
inductive Visits (p : Pid) :
    Prog Act α → σ → Prog Act α → σ → Prop where
  | refl (program : Prog Act α) (state : σ) :
      Visits p program state program state
  | step {β : Type} {action : Act β} {next : β → Prog Act α}
      {value : β} {first second third : σ} {rest : Prog Act α}
      (effect : sys.exec action p first = .done value second)
      (later : Visits p (next value) second rest third) :
      Visits p (.act action next) first rest third

/-- The program ends with `value` in `final`. -/
def Completes (p : Pid) (program : Prog Act α) (state : σ)
    (value : α) (final : σ) : Prop :=
  sys.Visits p program state (.ret value) final

/--
Running alone the program ends; every state on the way satisfies `inv` and
the last one `post`.
-/
def Runs (p : Pid) (inv : σ → Prop) (post : α → σ → Prop) :
    Prog Act α → σ → Prop
  | .ret value, state => inv state ∧ post value state
  | .act action next, state =>
      inv state ∧
        ∃ value after, sys.exec action p state = .done value after ∧
          Runs p inv post (next value) after
  | .panic _, _ => False

variable {sys} {p : Pid} {inv : σ → Prop} {post : α → σ → Prop}

/-- A call that ends before any other process takes a step is a run. -/
theorem Completes.reachable [DecidableEq Pid] {program : Prog Act Unit}
    {state final : σ} {prog : Pid → Prog Act Unit}
    (completes : sys.Completes p program state () final) (idle : prog p = .ret ())
    (task : sys.task state p program) :
    sys.Reachable ⟨state, prog⟩ ⟨final, prog⟩ := by
  have runs : ∀ {program rest : Prog Act Unit} {state final : σ},
      sys.Visits p program state rest final →
      sys.Reachable ⟨state, Function.update prog p program⟩
        ⟨final, Function.update prog p rest⟩ := by
    intro program rest state final visits
    induction visits with
    | refl program state => exact .refl
    | @step _ action next value first second third rest effect later ih =>
        let current := Function.update prog p (.act action next)
        have step : sys.Step ⟨first, current⟩ ⟨second, Function.update current p (next value)⟩ :=
          .done (Function.update_self ..) effect
        rw [Function.update_idem] at step
        exact .head step ih
  have last := runs completes
  rw [← idle, Function.update_eq_self] at last
  exact .head (.start idle task) last

theorem Runs.here {program : Prog Act α} {state : σ}
    (runs : sys.Runs p inv post program state) : inv state := by
  cases program with
  | ret value => exact runs.1
  | act action next => exact runs.1
  | panic message => exact runs.elim

/-- What is left of a program after some steps still runs to its end. -/
theorem Runs.visits {program rest : Prog Act α} {state final : σ}
    (runs : sys.Runs p inv post program state)
    (visits : sys.Visits p program state rest final) :
    sys.Runs p inv post rest final := by
  induction visits with
  | refl => exact runs
  | step effect _ ih =>
      rcases runs with ⟨_, value, after, effect', later⟩
      rw [effect] at effect'
      cases effect'
      exact ih later

theorem Runs.post_of_completes {program : Prog Act α} {state final : σ}
    {value : α}
    (runs : sys.Runs p inv post program state)
    (completes : sys.Completes p program state value final) :
    post value final :=
  (runs.visits completes).2

theorem Runs.completes {program : Prog Act α} {state : σ}
    (runs : sys.Runs p inv post program state) :
    ∃ value final, sys.Completes p program state value final := by
  induction program generalizing state with
  | ret value => exact ⟨value, state, .refl _ _⟩
  | act action next ih =>
      rcases runs with ⟨_, value, after, effect, later⟩
      rcases ih value later with ⟨result, final, completes⟩
      exact ⟨result, final, .step effect completes⟩
  | panic message => exact runs.elim

theorem Runs.weaken {program : Prog Act α} {state : σ} {weaker : σ → Prop}
    (runs : sys.Runs p inv post program state)
    (implies : ∀ state, inv state → weaker state) :
    sys.Runs p weaker post program state := by
  induction program generalizing state with
  | ret value => exact ⟨implies state runs.1, runs.2⟩
  | act action next ih =>
      rcases runs with ⟨here, value, after, effect, later⟩
      exact ⟨implies state here, value, after, effect, ih value later⟩
  | panic message => exact runs

theorem Runs.mono {program : Prog Act α} {state : σ}
    {weaker : α → σ → Prop}
    (runs : sys.Runs p inv post program state)
    (implies : ∀ value final, post value final → weaker value final) :
    sys.Runs p inv weaker program state := by
  induction program generalizing state with
  | ret value => exact ⟨runs.1, implies value state runs.2⟩
  | act action next ih =>
      rcases runs with ⟨here, value, after, effect, later⟩
      exact ⟨here, value, after, effect, ih value later⟩
  | panic message => exact runs

/-- Sequential composition: the first post-condition starts the second program. -/
theorem Runs.bind {program : Prog Act α} {state : σ}
    {next : α → Prog Act β} {final : β → σ → Prop}
    (runs :
      sys.Runs p inv
        (fun value after => sys.Runs p inv final (next value) after)
        program state) :
    sys.Runs p inv final (program >>= next) state := by
  induction program generalizing state with
  | ret value => exact runs.2
  | act action rest ih =>
      rcases runs with ⟨here, value, after, effect, later⟩
      exact ⟨here, value, after, effect, ih value later⟩
  | panic message => exact runs

/-- A loop over a list, with an invariant on the elements already done. -/
theorem Runs.forM {ι : Type} {body : ι → Prog Act PUnit}
    {final : σ → Prop} (loop : List ι → σ → Prop) (items : List ι)
    (safe : ∀ state, loop items state → inv state)
    (step : ∀ before item after state, items = before ++ item :: after →
      loop before state →
        sys.Runs p inv (fun _ state' => loop (before ++ [item]) state')
          (body item) state)
    (finish : ∀ state, loop items state → final state)
    {state : σ} (start : loop [] state) :
    sys.Runs p inv (fun _ state' => final state') (items.forM body) state := by
  suffices general :
      ∀ rest before state, items = before ++ rest → loop before state →
        sys.Runs p inv (fun _ state' => final state') (rest.forM body) state from
    general items [] state rfl start
  intro rest
  induction rest with
  | nil =>
      intro before state split holds
      rw [List.append_nil] at split
      subst split
      exact ⟨safe state holds, finish state holds⟩
  | cons item rest ih =>
      intro before state split holds
      change sys.Runs p inv _ (body item >>= fun _ => rest.forM body) state
      apply Runs.bind
      apply (step before item rest state split holds).mono
      intro _ state' holds'
      exact ih (before ++ [item]) state' (by simp [split]) holds'

/-! ## Runs whose steps meet a condition -/

/-- The same system, in which an action that misses `cond` is never taken. -/
def restrict (sys : System Act Pid σ)
    (cond : {β : Type} → Act β → Pid → σ → Bool) : System Act Pid σ where
  exec action p state :=
    if cond action p state then sys.exec action p state else .blocked
  task := sys.task

section Restrict

variable {cond : {β : Type} → Act β → Pid → σ → Bool}

theorem restrict_done {action : Act β} {state after : σ} {value : β}
    (effect : (sys.restrict cond).exec action p state = .done value after) :
    cond action p state = true ∧ sys.exec action p state = .done value after := by
  simp only [restrict] at effect
  split at effect
  · rename_i met
    exact ⟨met, effect⟩
  · cases effect

theorem restrict_again {action : Act β} {state after : σ}
    (effect : (sys.restrict cond).exec action p state = .again after) :
    cond action p state = true ∧ sys.exec action p state = .again after := by
  simp only [restrict] at effect
  split at effect
  · rename_i met
    exact ⟨met, effect⟩
  · cases effect

variable [DecidableEq Pid] {initial config : Config Act Pid σ}

/-- A run whose steps meet a condition meets every weaker one. -/
theorem restrict_mono {weaker : {β : Type} → Act β → Pid → σ → Bool}
    (weak : ∀ {β : Type} (action : Act β) (p : Pid) (state : σ),
      cond action p state = true → weaker action p state = true)
    (run : (sys.restrict cond).Reachable initial config) :
    (sys.restrict weaker).Reachable initial config := by
  induction run with
  | refl => exact .refl
  | tail _ step ih =>
      refine ih.tail ?_
      cases step with
      | start idle permitted => exact .start idle permitted
      | done current effect =>
          rcases restrict_done effect with ⟨met, effect⟩
          exact .done current ((if_pos (weak _ _ _ met)).trans effect)
      | again current effect =>
          rcases restrict_again effect with ⟨met, effect⟩
          exact .again current ((if_pos (weak _ _ _ met)).trans effect)

end Restrict

end System

end PiKernel.Conc
