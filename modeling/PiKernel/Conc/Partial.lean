import PiKernel.Conc.Prog

/-!
# What a program leaves, if it returns

`Leaves` is the weakest liberal precondition of a program running alone: nothing is said
where it blocks or panics.  It asks for no invariant of the state, so that what a program
computes, and what it never touches, is shown apart from what its memory looks like.
-/

namespace PiKernel.Conc

namespace Prog

variable
    {Act : Type → Type}
    {α β : Type}

/-- Every action of the program is of the given kind. -/
def Only (kind : {β : Type} → Act β → Prop) : Prog Act α → Prop
  | .ret _ => True
  | .act action next => kind action ∧ ∀ value, (next value).Only kind
  | .panic _ => True

variable
    {kind : {β : Type} → Act β → Prop}

theorem Only.ret {value : α} : (Prog.ret value : Prog Act α).Only kind :=
  trivial

theorem Only.panic {message : String} : (Prog.panic message : Prog Act α).Only kind :=
  trivial

theorem Only.perform {action : Act α} (isKind : kind action) :
    (Prog.perform action).Only kind :=
  ⟨isKind, fun _ => trivial⟩

theorem Only.bind {program : Prog Act α} {next : α → Prog Act β}
    (first : program.Only kind) (second : ∀ value, (next value).Only kind) :
    (program >>= next).Only kind := by
  induction program with
  | ret value => exact second value
  | act action rest ih => exact ⟨first.1, fun value => ih value (first.2 value)⟩
  | panic message => exact trivial

theorem Only.forM {ι : Type} {body : ι → Prog Act PUnit} (items : List ι)
    (each : ∀ item, (body item).Only kind) : (items.forM body).Only kind := by
  induction items with
  | nil => exact trivial
  | cons item items ih => exact (each item).bind fun _ => ih

/-- The first action is of the kind, and the rest is whatever the action answers. -/
theorem Only.act_iff {action : Act β} {next : β → Prog Act α} :
    (Prog.act action next).Only kind ↔ kind action ∧ ∀ value, (next value).Only kind :=
  Iff.rfl

attribute [irreducible] Only

end Prog

namespace System

variable
    {Act : Type → Type}
    {Pid σ α β : Type}
    (sys : System Act Pid σ)
    (p : Pid)

/-- If the program, running alone, returns, then with `post`. -/
def Leaves (post : α → σ → Prop) : Prog Act α → σ → Prop
  | .ret value, state => post value state
  | .act action next, state =>
      ∀ value after, sys.exec action p state = .done value after →
        Leaves post (next value) after
  | .panic _, _ => True

variable {sys} {p}
  {post post' : α → σ → Prop} {program : Prog Act α} {state final : σ} {value : α}

theorem Leaves.ret (holds : post value state) : sys.Leaves p post (.ret value) state :=
  holds

theorem Leaves.step {β : Type} {action : Act β} {next : β → Prog Act α}
    (later : ∀ value after, sys.exec action p state = .done value after →
      sys.Leaves p post (next value) after) :
    sys.Leaves p post (Prog.perform action >>= next) state :=
  later

theorem Leaves.of_ret (leaves : sys.Leaves p post (.ret value) state) : post value state :=
  leaves

theorem Leaves.after {β : Type} {action : Act β} {next : β → Prog Act α} {value : β}
    {after : σ} (leaves : sys.Leaves p post (.act action next) state)
    (effect : sys.exec action p state = .done value after) :
    sys.Leaves p post (next value) after :=
  leaves value after effect

theorem Leaves.mono (leaves : sys.Leaves p post program state)
    (implies : ∀ value final, post value final → post' value final) :
    sys.Leaves p post' program state := by
  induction program generalizing state with
  | ret value => exact implies value state leaves
  | act action next ih =>
      intro value after effect
      exact ih value (leaves value after effect)
  | panic message => exact trivial

theorem Leaves.bind {next : α → Prog Act β} {post : β → σ → Prop}
    (leaves :
      sys.Leaves p (fun value after => sys.Leaves p post (next value) after) program state) :
    sys.Leaves p post (program >>= next) state := by
  induction program generalizing state with
  | ret value => exact leaves
  | act action rest ih =>
      intro value after effect
      exact ih value (leaves value after effect)
  | panic message => exact trivial

/-- Nothing has to be known about a program whose result does not matter. -/
theorem Leaves.always (holds : ∀ value final, post value final) :
    sys.Leaves p post program state := by
  induction program generalizing state with
  | ret value => exact holds value state
  | act action next ih => exact fun value after _ => ih value
  | panic message => exact trivial

/-- What no action of the program changes is as before. -/
theorem Leaves.of_only {kind : {β : Type} → Act β → Prop} {I : σ → Prop}
    (only : program.Only kind)
    (step : ∀ {β : Type} (action : Act β) (value : β) (state after : σ), kind action →
      I state → sys.exec action p state = .done value after → I after)
    (holds : I state) : sys.Leaves p (fun _ final => I final) program state := by
  induction program generalizing state with
  | ret value => exact holds
  | act action next ih =>
      intro value after effect
      exact ih value ((Prog.Only.act_iff.mp only).2 value)
        (step action value state after (Prog.Only.act_iff.mp only).1 holds effect)
  | panic message => exact trivial

theorem Leaves.of_completes (leaves : sys.Leaves p post program state)
    (completes : sys.Completes p program state value final) : post value final := by
  change sys.Visits p program state (.ret value) final at completes
  generalize done : Prog.ret value = rest at completes
  induction completes with
  | refl program state =>
      subst done
      exact leaves
  | step effect _ ih => exact ih (leaves _ _ effect) done

/-- What holds wherever the program completes is left by it. -/
theorem Leaves.of_all
    (holds : ∀ value final, sys.Completes p program state value final → post value final) :
    sys.Leaves p post program state := by
  induction program generalizing state with
  | ret value => exact holds value state (.refl _ _)
  | act action next ih =>
      intro value after effect
      exact ih value fun result final completes => holds result final (.step effect completes)
  | panic message => exact trivial

-- Programs are verified by these rules and not executed.
attribute [irreducible] Leaves

end System

end PiKernel.Conc
