import PiKernel.Conc.Prog

/-!
# Views of the shared state

What a process owns is often written in the shared state itself: its locks, its open files,
its references.  `Views` gives every process its part of the shared state, its view.  A step
of one process leaves the views of all others alone, but it may give a view to a process
that has none; so processes may start each other.

`Safe` is the weakest precondition of a program on the view of its process.  As in a
protocol with ghost states it quantifies over all shared states with that view, so that it
is stable under the steps of the others.
-/

namespace PiKernel.Conc

universe v

/--
What is known of the shared state, and what of it belongs to a process.

`ok` is the obligation of an action, `mayPanic` the panics that are not excluded, and `rest`
what a process knows between two programs.
-/
structure Views {Act : Type → Type} {Pid σ : Type}
    (sys : System Act Pid σ) (View : Type v) where
  inv : σ → Prop
  /-- A process without a view has not been started. -/
  view : σ → Pid → Option View
  ok : {β : Type} → Act β → Pid → View → Prop
  mayPanic : String → Prop
  rest : Pid → View → Prop

namespace Views

variable
    {Act : Type → Type}
    {Pid σ : Type}
    {View : Type v}
    {sys : System Act Pid σ}
    (views : Views sys View)
    {α β : Type}

/-- The other processes keep their views; a process that had none may rest. -/
def Frame (p : Pid) (before after : σ) : Prop :=
  ∀ q, q ≠ p → views.view after q = views.view before q ∨
    views.view before q = none ∧ ∃ new, views.view after q = some new ∧ views.rest q new

/-- What the outcome of one action must leave behind. -/
def Accepts (p : Pid) (before : σ) (post : β → View → Prop) : Outcome β σ → Prop
  | .done value after =>
      views.inv after ∧ views.Frame p before after ∧
        ∃ mine, views.view after p = some mine ∧ post value mine
  | .again after =>
      views.inv after ∧ views.Frame p before after ∧ views.view after p = views.view before p
  | .blocked => True

/-- The weakest precondition of a program on the view of its process. -/
def Safe (p : Pid) : Prog Act α → View → (α → View → Prop) → Prop
  | .ret value, mine, post => post value mine
  | .act action next, mine, post =>
      views.ok action p mine ∧
        ∀ state, views.inv state → views.view state p = some mine →
          views.Accepts p state (fun value mine' => Safe p (next value) mine' post)
            (sys.exec action p state)
  | .panic message, _, _ => views.mayPanic message

variable {views} {p : Pid}

theorem Accepts.mono {before : σ} {post weaker : β → View → Prop} {outcome : Outcome β σ}
    (accepts : views.Accepts p before post outcome)
    (implies : ∀ value mine, post value mine → weaker value mine) :
    views.Accepts p before weaker outcome := by
  cases outcome with
  | done value after =>
      rcases accepts with ⟨holds, frame, mine, viewed, kept⟩
      exact ⟨holds, frame, mine, viewed, implies _ _ kept⟩
  | again after => exact accepts
  | blocked => trivial

section Rules

variable
    {program : Prog Act α}
    {next : α → Prog Act β}
    {mine : View}

theorem Safe.mono {post weaker : α → View → Prop}
    (safe : views.Safe p program mine post)
    (implies : ∀ value mine', post value mine' → weaker value mine') :
    views.Safe p program mine weaker := by
  induction program generalizing mine with
  | ret value => exact implies value mine safe
  | act action next ih =>
      rcases safe with ⟨obligation, accepts⟩
      refine ⟨obligation, fun state holds viewed => ?_⟩
      exact (accepts state holds viewed).mono fun value _ kept => ih value kept
  | panic message => exact safe

theorem Safe.bind {post : β → View → Prop}
    (safe : views.Safe p program mine fun value mine' => views.Safe p (next value) mine' post) :
    views.Safe p (program >>= next) mine post := by
  induction program generalizing mine with
  | ret value => exact safe
  | act action rest ih =>
      rcases safe with ⟨obligation, accepts⟩
      refine ⟨obligation, fun state holds viewed => ?_⟩
      exact (accepts state holds viewed).mono fun value _ kept => ih value kept
  | panic message => exact safe

/-- A first program with a known post-condition, then the second. -/
theorem Safe.seq {middle : α → View → Prop} {post : β → View → Prop}
    (first : views.Safe p program mine middle)
    (second : ∀ value mine', middle value mine' → views.Safe p (next value) mine' post) :
    views.Safe p (program >>= next) mine post :=
  Safe.bind (first.mono second)

theorem Safe.ret {value : α} {post : α → View → Prop} (holds : post value mine) :
    views.Safe p (.ret value) mine post :=
  holds

theorem Safe.panic {message : String} {post : α → View → Prop}
    (permitted : views.mayPanic message) : views.Safe p (.panic message) mine post :=
  permitted

theorem Safe.perform {action : Act α} {post : α → View → Prop}
    (obligation : views.ok action p mine)
    (accepts : ∀ state, views.inv state → views.view state p = some mine →
      views.Accepts p state post (sys.exec action p state)) :
    views.Safe p (Prog.perform action) mine post :=
  ⟨obligation, accepts⟩

end Rules

/-! ## Runs -/

/-- The views explain a configuration. -/
structure Explains (views : Views sys View) (config : Config Act Pid σ) : Prop where
  inv : views.inv config.shared
  safe : ∀ p mine, views.view config.shared p = some mine →
    views.Safe p (config.prog p) mine fun _ mine' => views.rest p mine'
  unborn : ∀ p, views.view config.shared p = none → config.prog p = .ret ()

/-- Every program that a process may start is safe where it may be started. -/
def TasksSafe (views : Views sys View) : Prop :=
  ∀ state p program, views.inv state → sys.task state p program →
    ∃ mine, views.view state p = some mine ∧
      (views.rest p mine → views.Safe p program mine fun _ mine' => views.rest p mine')

variable [DecidableEq Pid]

/-- What a step of one process leaves of the programs of the others. -/
theorem Explains.frame {config : Config Act Pid σ} {after : σ} {rest : Prog Act Unit}
    (explains : views.Explains config) (holds : views.inv after)
    (frame : views.Frame p config.shared after) {mine : View}
    (viewed : views.view after p = some mine)
    (safe : views.Safe p rest mine fun _ mine' => views.rest p mine') :
    views.Explains ⟨after, Function.update config.prog p rest⟩ := by
  constructor
  · exact holds
  · intro q yours viewed'
    by_cases same : q = p
    · subst same
      rw [viewed] at viewed'
      cases viewed'
      simpa using safe
    · simp only [Function.update_of_ne same]
      rcases frame q same with kept | ⟨none, new, started, resting⟩
      · exact explains.safe q yours (kept ▸ viewed')
      · have idle := explains.unborn q none
        rw [started] at viewed'
        cases viewed'
        rw [idle]
        exact resting
  · intro q none
    have other : q ≠ p := by
      rintro rfl
      rw [viewed] at none
      cases none
    simp only [Function.update_of_ne other]
    rcases frame q other with kept | ⟨_, new, started, _⟩
    · exact explains.unborn q (kept ▸ none)
    · rw [started] at none
      cases none

theorem Explains.step {config config' : Config Act Pid σ}
    (tasks : views.TasksSafe) (explains : views.Explains config)
    (step : sys.Step config config') : views.Explains config' := by
  cases step with
  | @start p program idle permitted =>
      rcases tasks _ p program explains.inv permitted with ⟨mine, viewed, safe⟩
      have resting := explains.safe p mine viewed
      rw [idle] at resting
      exact explains.frame explains.inv (fun _ _ => .inl rfl) viewed (safe resting)
  | @done p _ action next value state current effect =>
      cases viewed : views.view config.shared p with
      | none =>
          have idle := explains.unborn p viewed
          rw [current] at idle
          cases idle
      | some mine =>
          have here := explains.safe p mine viewed
          rw [current] at here
          have accepts := here.2 _ explains.inv viewed
          rw [effect] at accepts
          rcases accepts with ⟨holds, frame, mine', viewed', kept⟩
          exact explains.frame holds frame viewed' kept
  | @again p _ action next state current effect =>
      cases viewed : views.view config.shared p with
      | none =>
          have idle := explains.unborn p viewed
          rw [current] at idle
          cases idle
      | some mine =>
          have here := explains.safe p mine viewed
          have here' := here
          rw [current] at here'
          have accepts := here'.2 _ explains.inv viewed
          rw [effect] at accepts
          rcases accepts with ⟨holds, frame, same⟩
          have whole := explains.frame holds frame (same.trans viewed) here
          rwa [Function.update_eq_self] at whole

/-- Every configuration of every run is explained. -/
theorem reachable {initial config : Config Act Pid σ}
    (tasks : views.TasksSafe) (start : views.Explains initial)
    (run : sys.Reachable initial config) : views.Explains config := by
  induction run with
  | refl => exact start
  | tail _ step ih => exact ih.step tasks step

omit [DecidableEq Pid]

/-- The action a process is about to execute meets its obligation. -/
theorem Explains.obligation {config : Config Act Pid σ} {action : Act β}
    {next : β → Prog Act Unit} (explains : views.Explains config)
    (current : config.prog p = .act action next) :
    ∃ mine, views.view config.shared p = some mine ∧ views.ok action p mine := by
  cases viewed : views.view config.shared p with
  | none =>
      have idle := explains.unborn p viewed
      rw [current] at idle
      cases idle
  | some mine =>
      have here := explains.safe p mine viewed
      rw [current] at here
      exact ⟨mine, rfl, here.1⟩

/-- A process that has panicked did so with a permitted message. -/
theorem Explains.panic {config : Config Act Pid σ} {message : String}
    (explains : views.Explains config) (current : config.prog p = .panic message) :
    views.mayPanic message := by
  cases viewed : views.view config.shared p with
  | none =>
      have idle := explains.unborn p viewed
      rw [current] at idle
      cases idle
  | some mine =>
      have here := explains.safe p mine viewed
      rw [current] at here
      exact here

/-- A process between two programs rests. -/
theorem Explains.resting {config : Config Act Pid σ} {mine : View}
    (explains : views.Explains config) (idle : config.prog p = .ret ())
    (viewed : views.view config.shared p = some mine) : views.rest p mine := by
  have here := explains.safe p mine viewed
  rw [idle] at here
  exact here

end Views

end PiKernel.Conc
