import PiKernel.Conc.Prog

/-!
# Protocols for interleaved programs

A `Protocol` explains a shared state by a ghost state.  Each process owns a
local part of the ghost state; a step of one process may change the common
part and its own local part, and nothing else.  `Safe` is the resulting
weakest precondition.  It quantifies over every ghost state that agrees with
the local part, so it is stable under the steps of all other processes by
construction.

`Protocol.reachable` is the only induction over runs: when the programs which
processes may start are safe, every reachable configuration is explained by
some ghost state, every action about to be executed meets its obligation, and
only permitted panics are reached.
-/

namespace PiKernel.Conc

universe u v

/--
The ghost states that explain a shared state.

`ok` is the obligation of an action in the state in which it is executed,
`mayPanic` the panics that are not excluded, and `rest` what a process knows
between two programs.
-/
structure Protocol {Act : Type → Type} {Pid σ : Type}
    (sys : System Act Pid σ) (Ghost : Type u) (Own : Type v) where
  inv : Ghost → σ → Prop
  own : Ghost → Pid → Own
  ok : {β : Type} → Act β → Pid → σ → Prop
  mayPanic : String → Prop
  rest : Pid → Own → Prop

namespace Protocol

variable
    {Act : Type → Type}
    {Pid σ : Type}
    {Ghost : Type u} {Own : Type v}
    {sys : System Act Pid σ}
    (prot : Protocol sys Ghost Own)
    {α β : Type}

/-- The other processes keep their part of the ghost state. -/
def Frame (p : Pid) (before after : Ghost) : Prop :=
  ∀ q, q ≠ p → prot.own after q = prot.own before q

/-- What the outcome of one action must leave behind. -/
def Accepts (p : Pid) (before : Ghost) (post : β → Own → Prop) :
    Outcome β σ → Prop
  | .done value state =>
      ∃ after, prot.inv after state ∧ prot.Frame p before after ∧
        post value (prot.own after p)
  | .again state =>
      ∃ after, prot.inv after state ∧
        ∀ q, prot.own after q = prot.own before q
  | .blocked => True

/-- The weakest precondition of a program on the local ghost state. -/
def Safe (p : Pid) : Prog Act α → Own → (α → Own → Prop) → Prop
  | .ret value, mine, post => post value mine
  | .act action next, mine, post =>
      ∀ ghost state, prot.inv ghost state → prot.own ghost p = mine →
        prot.ok action p state ∧
          prot.Accepts p ghost
            (fun value mine' => Safe p (next value) mine' post)
            (sys.exec action p state)
  | .panic message, _, _ => prot.mayPanic message

variable {prot} {p : Pid}

theorem Accepts.mono {before : Ghost} {post weaker : β → Own → Prop}
    {outcome : Outcome β σ}
    (accepts : prot.Accepts p before post outcome)
    (implies : ∀ value mine, post value mine → weaker value mine) :
    prot.Accepts p before weaker outcome := by
  cases outcome with
  | done value state =>
      obtain ⟨after, holds, frame, kept⟩ := accepts
      exact ⟨after, holds, frame, implies _ _ kept⟩
  | again state => exact accepts
  | blocked => trivial

theorem Safe.mono {program : Prog Act α} {mine : Own}
    {post weaker : α → Own → Prop}
    (safe : prot.Safe p program mine post)
    (implies : ∀ value mine', post value mine' → weaker value mine') :
    prot.Safe p program mine weaker := by
  induction program generalizing mine with
  | ret value => exact implies value mine safe
  | act action next ih =>
      intro ghost state holds owned
      obtain ⟨obligation, accepts⟩ := safe ghost state holds owned
      exact ⟨obligation, accepts.mono fun value _ kept => ih value kept⟩
  | panic message => exact safe

/-- Sequential composition. -/
theorem Safe.bind {program : Prog Act α} {next : α → Prog Act β}
    {mine : Own} {post : β → Own → Prop}
    (safe :
      prot.Safe p program mine
        fun value mine' => prot.Safe p (next value) mine' post) :
    prot.Safe p (program >>= next) mine post := by
  induction program generalizing mine with
  | ret value => exact safe
  | act action rest ih =>
      intro ghost state holds owned
      obtain ⟨obligation, accepts⟩ := safe ghost state holds owned
      exact ⟨obligation, accepts.mono fun value _ kept => ih value kept⟩
  | panic message => exact safe

/-- A first program with a known post-condition, then the second. -/
theorem Safe.seq {program : Prog Act α} {next : α → Prog Act β}
    {mine : Own} {middle : α → Own → Prop} {post : β → Own → Prop}
    (first : prot.Safe p program mine middle)
    (second : ∀ value mine', middle value mine' →
      prot.Safe p (next value) mine' post) :
    prot.Safe p (program >>= next) mine post :=
  Safe.bind (first.mono second)

/--
A loop over a list keeps an invariant of the local ghost state that is
indexed by the elements already done.
-/
theorem Safe.forM {ι : Type} {body : ι → Prog Act PUnit} {post : Own → Prop}
    (inv : List ι → Own → Prop) (items : List ι)
    (step : ∀ before item after mine, items = before ++ item :: after →
      inv before mine →
        prot.Safe p (body item) mine fun _ mine' => inv (before ++ [item]) mine')
    (final : ∀ mine, inv items mine → post mine)
    {mine : Own} (start : inv [] mine) :
    prot.Safe p (items.forM body) mine fun _ mine' => post mine' := by
  suffices general :
      ∀ rest before mine, items = before ++ rest → inv before mine →
        prot.Safe p (rest.forM body) mine fun _ mine' => post mine' from
    general items [] mine rfl start
  intro rest
  induction rest with
  | nil =>
      intro before mine split holds
      rw [List.append_nil] at split
      exact final mine (split ▸ holds)
  | cons item rest ih =>
      intro before mine split holds
      change prot.Safe p (body item >>= fun _ => rest.forM body) mine _
      refine Safe.seq (step before item rest mine split holds) ?_
      intro _ mine' holds'
      exact ih (before ++ [item]) mine' (by simp [split]) holds'

/-- A program of actions that leave the local ghost state alone. -/
theorem Safe.ofAll {kind : {β : Type} → Act β → Prop} {mine : Own}
    (silent : ∀ {β : Type} (action : Act β), kind action →
      ∀ ghost state, prot.inv ghost state → prot.own ghost p = mine →
        prot.ok action p state ∧
          prot.Accepts p ghost (fun _ mine' => mine' = mine)
            (sys.exec action p state))
    {program : Prog Act α} (all : program.All kind) :
    prot.Safe p program mine fun _ mine' => mine' = mine := by
  induction program with
  | ret value => rfl
  | act action next ih =>
      intro ghost state holds owned
      rcases silent action all.1 ghost state holds owned with ⟨obligation, accepts⟩
      refine ⟨obligation, accepts.mono ?_⟩
      rintro value _ rfl
      exact ih value (all.2 value)
  | panic message => exact all.elim

/-! ## Runs -/

/-- A ghost state explains the whole configuration. -/
def Explains (prot : Protocol sys Ghost Own) (config : Config Act Pid σ) : Prop :=
  ∃ ghost, prot.inv ghost config.shared ∧
    ∀ p, prot.Safe p (config.prog p) (prot.own ghost p)
      fun _ mine => prot.rest p mine

/--
Every program that a process may start is safe where it may be started.  The
start may be noted in the ghost state.
-/
def TasksSafe (prot : Protocol sys Ghost Own) : Prop :=
  ∀ ghost state p program, prot.inv ghost state →
    prot.rest p (prot.own ghost p) → sys.task state p program →
      ∃ started, prot.inv started state ∧ prot.Frame p ghost started ∧
        prot.Safe p program (prot.own started p) fun _ mine => prot.rest p mine

/-- The start of a program need not be noted. -/
theorem TasksSafe.ofSafe
    (safe : ∀ ghost state p program, prot.inv ghost state →
      prot.rest p (prot.own ghost p) → sys.task state p program →
        prot.Safe p program (prot.own ghost p) fun _ mine => prot.rest p mine) :
    prot.TasksSafe :=
  fun ghost state p program holds resting permitted =>
    ⟨ghost, holds, fun _ _ => rfl,
      safe ghost state p program holds resting permitted⟩

variable [DecidableEq Pid]

theorem Explains.step {config config' : Config Act Pid σ}
    (tasks : prot.TasksSafe)
    (explains : prot.Explains config)
    (step : sys.Step config config') :
    prot.Explains config' := by
  obtain ⟨ghost, holds, safe⟩ := explains
  cases step with
  | @start p program idle permitted =>
      have resting := safe p
      rw [idle] at resting
      obtain ⟨started, holds', frame, safe'⟩ :=
        tasks ghost _ p program holds resting permitted
      refine ⟨started, holds', fun q => ?_⟩
      by_cases same : q = p
      · subst same
        simpa using safe'
      · simpa [same, frame q same] using safe q
  | @done p _ action next value state current effect =>
      have here := safe p
      rw [current] at here
      have accepts := (here ghost _ holds rfl).2
      rw [effect] at accepts
      obtain ⟨after, holds', frame, kept⟩ := accepts
      refine ⟨after, holds', fun q => ?_⟩
      by_cases same : q = p
      · subst same
        simpa using kept
      · simpa [same, frame q same] using safe q
  | @again p _ action next state current effect =>
      have here := safe p
      rw [current] at here
      have accepts := (here ghost _ holds rfl).2
      rw [effect] at accepts
      obtain ⟨after, holds', frame⟩ := accepts
      exact ⟨after, holds', fun q => by simpa [frame q] using safe q⟩

/-- Every configuration of every run is explained. -/
theorem reachable {initial config : Config Act Pid σ}
    (tasks : prot.TasksSafe)
    (start : prot.Explains initial)
    (run : sys.Reachable initial config) :
    prot.Explains config := by
  induction run with
  | refl => exact start
  | tail _ step ih => exact ih.step tasks step

omit [DecidableEq Pid] in
/-- The action a process is about to execute meets its obligation. -/
theorem Explains.obligation {config : Config Act Pid σ}
    {action : Act β} {next : β → Prog Act Unit}
    (explains : prot.Explains config)
    (current : config.prog p = .act action next) :
    prot.ok action p config.shared := by
  obtain ⟨ghost, holds, safe⟩ := explains
  have here := safe p
  rw [current] at here
  exact (here ghost _ holds rfl).1

omit [DecidableEq Pid] in
/-- A process that has panicked did so with a permitted message. -/
theorem Explains.panic {config : Config Act Pid σ} {message : String}
    (explains : prot.Explains config)
    (current : config.prog p = .panic message) :
    prot.mayPanic message := by
  obtain ⟨ghost, _, safe⟩ := explains
  have here := safe p
  rw [current] at here
  exact here

end Protocol

end PiKernel.Conc
