import PiKernel.Conc.Prog

/-!
# Refinement of systems

`Refines low high agree` says that a run of `low` cannot be told from a run of
`high` by `agree`: every step of `low` is a step of `high` or changes nothing
there.  The two systems may have different actions and states.
-/

namespace PiKernel.Conc

variable
    {Low High : Type → Type}
    {Pid σ τ : Type}
    [DecidableEq Pid]

/-- The steps of `low` from `first` are explained by those of `high` from `first'`. -/
def Refines (low : System Low Pid σ) (high : System High Pid τ)
    (agree : Config Low Pid σ → Config High Pid τ → Prop)
    (first : Config Low Pid σ) (first' : Config High Pid τ) : Prop :=
  ∃ related : Config Low Pid σ → Config High Pid τ → Prop,
    related first first' ∧
      ∀ config abs, related config abs →
        agree config abs ∧
          ∀ config', low.Step config config' →
            ∃ abs', (abs' = abs ∨ high.Step abs abs') ∧ related config' abs'

variable
    {low : System Low Pid σ}
    {high : System High Pid τ}
    {agree : Config Low Pid σ → Config High Pid τ → Prop}
    {first config : Config Low Pid σ}
    {first' : Config High Pid τ}

/-- Every reachable configuration agrees with one that `high` reaches. -/
theorem Refines.reachable
    (refines : Refines low high agree first first')
    (run : low.Reachable first config) :
    ∃ abs, high.Reachable first' abs ∧ agree config abs := by
  rcases refines with ⟨related, start, simulates⟩
  suffices general : ∃ abs, high.Reachable first' abs ∧ related config abs by
    rcases general with ⟨abs, run', holds⟩
    exact ⟨abs, run', (simulates config abs holds).1⟩
  induction run with
  | refl => exact ⟨first', .refl, start⟩
  | tail _ step ih =>
      rcases ih with ⟨abs, run', holds⟩
      rcases (simulates _ abs holds).2 _ step with ⟨abs', rfl | step', holds'⟩
      · exact ⟨abs', run', holds'⟩
      · exact ⟨abs', run'.tail step', holds'⟩

end PiKernel.Conc
