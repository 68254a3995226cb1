import Mathlib.Algebra.Group.Defs
import PiKernel.Conc.Prog

/-!
# What a process has done

`Tally weight p initial config total` says that the weights of the actions which `p` has
executed in a run from `initial` to `config` add up to `total`.  Every run has a tally.
-/

namespace PiKernel.Conc.System

variable
    {Act : Type → Type}
    {Pid σ M : Type}
    [DecidableEq Pid] [AddMonoid M]
    (sys : System Act Pid σ)
    (weight : {β : Type} → Act β → M)
    (p : Pid)
    (initial : Config Act Pid σ)

/-- The runs from `initial`, with the sum of the weights of what one process executes. -/
inductive Tally : Config Act Pid σ → M → Prop where
  | refl : Tally initial 0
  | start {config : Config Act Pid σ} {total : M} {q : Pid} {program : Prog Act Unit}
      (run : Tally config total) (idle : config.prog q = .ret ())
      (permitted : sys.task config.shared q program) :
      Tally ⟨config.shared, Function.update config.prog q program⟩ total
  | done {config : Config Act Pid σ} {total : M} {q : Pid} {β : Type}
      {action : Act β} {next : β → Prog Act Unit} {value : β} {state : σ}
      (run : Tally config total) (current : config.prog q = .act action next)
      (effect : sys.exec action q config.shared = .done value state) :
      Tally ⟨state, Function.update config.prog q (next value)⟩
        (if q = p then total + weight action else total)
  | again {config : Config Act Pid σ} {total : M} {q : Pid} {β : Type}
      {action : Act β} {next : β → Prog Act Unit} {state : σ}
      (run : Tally config total) (current : config.prog q = .act action next)
      (effect : sys.exec action q config.shared = .again state) :
      Tally ⟨state, config.prog⟩ total

variable {sys weight p initial} {config : Config Act Pid σ} {total : M}

theorem Tally.reachable (tally : sys.Tally weight p initial config total) :
    sys.Reachable initial config := by
  induction tally with
  | refl => exact .refl
  | start _ idle permitted ih => exact ih.tail (.start idle permitted)
  | done _ current effect ih => exact ih.tail (.done current effect)
  | again _ current effect ih => exact ih.tail (.again current effect)

theorem Reachable.tally (run : sys.Reachable initial config) :
    ∃ total, sys.Tally weight p initial config total := by
  induction run with
  | refl => exact ⟨0, .refl⟩
  | tail _ step ih =>
      rcases ih with ⟨total, tally⟩
      cases step with
      | start idle permitted => exact ⟨total, tally.start idle permitted⟩
      | done current effect => exact ⟨_, tally.done current effect⟩
      | again current effect => exact ⟨total, tally.again current effect⟩

end PiKernel.Conc.System
