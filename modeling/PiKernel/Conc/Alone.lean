import PiKernel.Conc.Partial

/-!
# A program running alone to its end

`Ends` is the outcome of a program that no other process interrupts: every
action goes through, and the program returns with its post-condition or stops
in a panic that is allowed.  As execution is a function, two outcomes of one
program in one state are the same.
-/

namespace PiKernel.Conc

namespace System

variable
    {Act : Type → Type}
    {Pid σ α β : Type}
    (sys : System Act Pid σ)
    (p : Pid)

/-- Running alone the program returns with `post`, or panics as allowed. -/
def Ends (mayPanic : String → Prop) (post : α → σ → Prop) : Prog Act α → σ → Prop
  | .ret value, state => post value state
  | .act action next, state =>
      ∃ value after, sys.exec action p state = .done value after ∧
        Ends mayPanic post (next value) after
  | .panic message, _ => mayPanic message

variable {sys} {p} {mayPanic mayPanic' : String → Prop}
  {post post' : α → σ → Prop} {program : Prog Act α} {state final : σ} {value : α}

theorem Ends.mono (ends : sys.Ends p mayPanic post program state)
    (panics : ∀ message, mayPanic message → mayPanic' message)
    (implies : ∀ value final, post value final → post' value final) :
    sys.Ends p mayPanic' post' program state := by
  induction program generalizing state with
  | ret value => exact implies value state ends
  | act action next ih =>
      rcases ends with ⟨value, after, effect, later⟩
      exact ⟨value, after, effect, ih value later⟩
  | panic message => exact panics message ends

theorem Ends.bind {next : α → Prog Act β} {post : β → σ → Prop}
    (ends :
      sys.Ends p mayPanic
        (fun value after => sys.Ends p mayPanic post (next value) after)
        program state) :
    sys.Ends p mayPanic post (program >>= next) state := by
  induction program generalizing state with
  | ret value => exact ends
  | act action rest ih =>
      rcases ends with ⟨value, after, effect, later⟩
      exact ⟨value, after, effect, ih value later⟩
  | panic message => exact ends

theorem Ends.ret (holds : post value state) :
    sys.Ends p mayPanic post (.ret value) state :=
  holds

theorem Ends.panic {message : String} (allowed : mayPanic message) :
    sys.Ends p mayPanic post (.panic message) state :=
  allowed

theorem Ends.perform {action : Act α} (effect : sys.exec action p state = .done value final)
    (holds : post value final) : sys.Ends p mayPanic post (Prog.perform action) state :=
  ⟨value, final, effect, holds⟩

theorem Ends.step {β : Type} {action : Act β} {next : β → Prog Act α} {value : β}
    {after : σ} (effect : sys.exec action p state = .done value after)
    (later : sys.Ends p mayPanic post (next value) after) :
    sys.Ends p mayPanic post (Prog.perform action >>= next) state :=
  ⟨value, after, effect, later⟩

/-- A loop keeps an invariant that is indexed by the iteration. -/
theorem Ends.forM_range {body : Nat → Prog Act PUnit} {count : Nat} (inv : Nat → σ → Prop)
    (iteration : ∀ i before, i < count → inv i before →
      sys.Ends p mayPanic (fun _ after => inv (i + 1) after) (body i) before)
    (start : inv 0 state) :
    sys.Ends p mayPanic (fun _ after => inv count after) ((List.range count).forM body) state := by
  suffices general : ∀ rest i before, i + rest = count → inv i before →
      sys.Ends p mayPanic (fun _ after => inv count after)
        ((List.range' i rest).forM body) before by
    rw [List.range_eq_range']
    exact general count 0 state (Nat.zero_add count) start
  intro rest
  induction rest with
  | zero =>
      intro i before all holds
      rw [Nat.add_zero] at all
      exact Ends.ret (all ▸ holds)
  | succ rest ih =>
      intro i before all holds
      rw [List.range'_succ]
      apply Ends.bind
      apply (iteration i before (by omega) holds).mono (fun _ => id)
      intro _ after holds'
      exact ih (i + 1) after (by omega) holds'

/-- A program has one outcome. -/
theorem Ends.both (first : sys.Ends p mayPanic post program state)
    (second : sys.Ends p mayPanic' post' program state) :
    sys.Ends p (fun message => mayPanic message ∧ mayPanic' message)
      (fun value final => post value final ∧ post' value final) program state := by
  induction program generalizing state with
  | ret value => exact ⟨first, second⟩
  | act action next ih =>
      rcases first with ⟨value, after, effect, later⟩
      rcases second with ⟨value', after', effect', later'⟩
      rw [effect] at effect'
      cases effect'
      exact ⟨value, after, effect, ih value later later'⟩
  | panic message => exact ⟨first, second⟩

/-- A program that ends leaves what it leaves if it returns. -/
theorem Ends.leaving (ends : sys.Ends p mayPanic post program state)
    (leaves : sys.Leaves p post' program state) :
    sys.Ends p mayPanic (fun value final => post value final ∧ post' value final)
      program state := by
  induction program generalizing state with
  | ret value => exact ⟨ends, leaves.of_ret⟩
  | act action next ih =>
      rcases ends with ⟨value, after, effect, later⟩
      exact ⟨value, after, effect, ih value later (leaves.after effect)⟩
  | panic message => exact ends

/-- What holds at the end holds where the program completes. -/
theorem Ends.of_completes (ends : sys.Ends p mayPanic post program state)
    (completes : sys.Completes p program state value final) : post value final := by
  change sys.Visits p program state (.ret value) final at completes
  generalize done : Prog.ret value = rest at completes
  induction completes with
  | refl program state =>
      subst done
      exact ends
  | step effect _ ih =>
      rcases ends with ⟨value', after, effect', later⟩
      rw [effect] at effect'
      cases effect'
      exact ih later done

theorem Ends.leaves (ends : sys.Ends p (fun _ => True) post program state) :
    sys.Leaves p post program state :=
  .of_all fun _ _ => ends.of_completes

/-- A program that cannot panic completes. -/
theorem Ends.completes (ends : sys.Ends p (fun _ => False) post program state) :
    ∃ value final, sys.Completes p program state value final ∧ post value final := by
  induction program generalizing state with
  | ret value => exact ⟨value, state, .refl _ _, ends⟩
  | act action next ih =>
      rcases ends with ⟨value, after, effect, later⟩
      rcases ih value later with ⟨result, final, completes, holds⟩
      exact ⟨result, final, .step effect completes, holds⟩
  | panic message => exact ends.elim

/-- A program that completes ends as it does. -/
theorem Completes.ends (completes : sys.Completes p program state value final)
    (holds : post value final) : sys.Ends p mayPanic post program state := by
  change sys.Visits p program state (.ret value) final at completes
  generalize done : Prog.ret value = rest at completes
  induction completes with
  | refl program state =>
      subst done
      exact holds
  | step effect _ ih => exact ⟨_, _, effect, ih holds done⟩

theorem Completes.unique {value' : α} {final' : σ}
    (completes : sys.Completes p program state value final)
    (completes' : sys.Completes p program state value' final') :
    value' = value ∧ final' = final := by
  have ends : sys.Ends p (fun _ => True)
      (fun value' final' => value' = value ∧ final' = final) program state :=
    completes.ends ⟨rfl, rfl⟩
  exact ends.of_completes completes'

/-! ## Two systems side by side -/

/-- Every action works on one of two states; nothing is started. -/
def prod {Act' : Type → Type} {τ : Type} (sys : System Act Pid σ)
    (sys' : System Act' Pid τ) : System (Either Act Act') Pid (σ × τ) where
  exec
    | .left action, p, state =>
        (sys.exec action p state.1).map fun after => (after, state.2)
    | .right action, p, state =>
        (sys'.exec action p state.2).map fun after => (state.1, after)
  task _ _ _ := False

/-- A program of one of the systems leaves the state of the other alone. -/
theorem Ends.left {Act' : Type → Type} {τ : Type} {sys' : System Act' Pid τ} {rest : τ}
    (ends : sys.Ends p mayPanic post program state) :
    (sys.prod sys').Ends p mayPanic
      (fun value final => post value final.1 ∧ final.2 = rest) program.left (state, rest) := by
  induction program generalizing state with
  | ret value => exact ⟨ends, rfl⟩
  | act action next ih =>
      rcases ends with ⟨value, after, effect, later⟩
      refine ⟨value, (after, rest), ?_, ih value later⟩
      simp only [prod, effect, Outcome.map]
  | panic message => exact ends

-- Programs are verified by these rules and not executed.
attribute [irreducible] Ends

/-! ## Computed runs -/

variable (sys) (p)

/-- The result of a program, if it returns. -/
def run : Prog Act α → σ → Option (α × σ)
  | .ret value, state => some (value, state)
  | .act action next, state =>
      match sys.exec action p state with
      | .done value after => run (next value) after
      | _ => none
  | .panic _, _ => none

variable {sys} {p}

theorem run_completes (result : sys.run p program state = some (value, final)) :
    sys.Completes p program state value final := by
  induction program generalizing state with
  | ret value =>
      cases result
      exact .refl _ _
  | act action next ih =>
      rw [run] at result
      split at result
      · exact .step ‹_› (ih _ result)
      · cases result
  | panic message => cases result

/-- A run that computes to a result. -/
theorem run_isSome {program : Prog Act (Option α)}
    (done : ((sys.run p program state).map Prod.fst).join.isSome) :
    ∃ value final, sys.Completes p program state (some value) final := by
  rcases Option.isSome_iff_exists.mp done with ⟨value, done⟩
  rcases Option.map_eq_some_iff.mp (Option.join_eq_some_iff.mp done) with
    ⟨⟨_, final⟩, result, rfl⟩
  exact ⟨value, final, run_completes result⟩

theorem Completes.run_eq (completes : sys.Completes p program state value final) :
    sys.run p program state = some (value, final) := by
  change sys.Visits p program state (.ret value) final at completes
  generalize done : Prog.ret value = rest at completes
  induction completes with
  | refl program state =>
      subst done
      rfl
  | step effect _ ih =>
      rw [run, effect]
      exact ih done

theorem completes_iff_run :
    sys.Completes p program state value final ↔ sys.run p program state = some (value, final) :=
  ⟨Completes.run_eq, run_completes⟩

/-! ## A part of the state that no action reaches -/

variable (sys) in
/-- The system with another component of the state, which is read and written elsewhere. -/
def beside (τ : Type) : System Act Pid (σ × τ) where
  exec action p state := (sys.exec action p state.1).map fun after => (after, state.2)
  task state p program := sys.task state.1 p program

theorem run_beside {τ : Type} {rest : τ} :
    (sys.beside τ).run p program (state, rest) =
      (sys.run p program state).map fun result => (result.1, result.2, rest) := by
  induction program generalizing state with
  | ret value => rfl
  | act action next ih =>
      rw [run, run]
      simp only [beside]
      cases sys.exec action p state with
      | done value after => exact ih value
      | again after => rfl
      | blocked => rfl
  | panic message => rfl

theorem completes_beside {τ : Type} {rest rest' : τ} :
    (sys.beside τ).Completes p program (state, rest) value (final, rest') ↔
      sys.Completes p program state value final ∧ rest' = rest := by
  rw [completes_iff_run, completes_iff_run, run_beside, Option.map_eq_some_iff]
  constructor
  · rintro ⟨⟨result, after⟩, done, same⟩
    cases same
    exact ⟨done, rfl⟩
  · rintro ⟨done, rfl⟩
    exact ⟨_, done, rfl⟩

end System

end PiKernel.Conc
