import PiKernel.Conc.Prog

/-!
# Schedules

A run can be given as a list of events: a process starts a call, or takes its
next action.  `replay` executes such a schedule, so that a concrete run is a
computation, and `replay_reachable` says that its result is reachable.
-/

namespace PiKernel.Conc

/-- One decision of the scheduler. -/
inductive Event (Pid Call : Type) where
  | call (p : Pid) (call : Call)
  | run (p : Pid)

namespace System

variable
    {Act : Type → Type}
    {Pid σ Call : Type}
    [DecidableEq Pid]
    (sys : System Act Pid σ)
    (permitted : Call → σ → Pid → Bool)
    (program : Call → Prog Act Unit)

/-- The configuration after an event, if the event is possible. -/
def fire (config : Config Act Pid σ) : Event Pid Call → Option (Config Act Pid σ)
  | .call p call =>
      match config.prog p with
      | .ret () =>
          if permitted call config.shared p then
            some ⟨config.shared, Function.update config.prog p (program call)⟩
          else
            none
      | _ => none
  | .run p =>
      match config.prog p with
      | .act action next =>
          match sys.exec action p config.shared with
          | .done value state =>
              some ⟨state, Function.update config.prog p (next value)⟩
          | .again state => some ⟨state, config.prog⟩
          | .blocked => none
      | _ => none

/-- The configuration after a schedule. -/
def replay : List (Event Pid Call) → Config Act Pid σ → Option (Config Act Pid σ)
  | [], config => some config
  | event :: events, config =>
      (sys.fire permitted program config event).bind (replay events)

variable {sys permitted program}

theorem fire_step
    (tasks : ∀ call state p, permitted call state p = true →
      sys.task state p (program call))
    {config config' : Config Act Pid σ} {event : Event Pid Call}
    (fired : sys.fire permitted program config event = some config') :
    sys.Step config config' := by
  cases event with
  | call p call =>
      simp only [fire] at fired
      split at fired
      · rename_i idle
        split at fired
        · cases fired
          exact .start idle (tasks call _ p ‹_›)
        · cases fired
      · cases fired
  | run p =>
      simp only [fire] at fired
      split at fired
      · rename_i current
        split at fired
        · cases fired
          exact .done current ‹_›
        · cases fired
          exact .again current ‹_›
        · cases fired
      · cases fired

/-- A replayed schedule is a run. -/
theorem replay_reachable
    (tasks : ∀ call state p, permitted call state p = true →
      sys.task state p (program call))
    {events : List (Event Pid Call)} {config config' : Config Act Pid σ}
    (replayed : sys.replay permitted program events config = some config') :
    sys.Reachable config config' := by
  induction events generalizing config with
  | nil =>
      cases replayed
      exact .refl
  | cons event events ih =>
      rcases Option.bind_eq_some_iff.mp replayed with ⟨middle, fired, later⟩
      exact .head (fire_step tasks fired) (ih later)

end System

end PiKernel.Conc
