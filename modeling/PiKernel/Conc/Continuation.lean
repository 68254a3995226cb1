import Mathlib.Data.List.Basic

/-!
# Continuations as lists of statements

What a thread still has to execute is a list of statements.  A discipline (which locks are
held, which call is in progress) is a partial transition function on phases; a continuation
follows the discipline from a phase if every statement is permitted in the phase in which
it is reached.  A call replaces a statement by the body of the function, so that it is
enough to follow the body once.
-/

namespace PiKernel.Conc

variable
    {Phase Stmt : Type}
    (next : Phase → Stmt → Option Phase)

/-- The phase after some statements; `none` if one of them is not permitted. -/
def walk (phase : Phase) (code : List Stmt) : Option Phase :=
  code.foldlM next phase

/-- Every statement is permitted where it is reached. -/
def Follows (phase : Phase) (code : List Stmt) : Prop :=
  (walk next phase code).isSome

variable {next} {a b : Phase}

@[simp]
theorem walk_nil : walk next a [] = some a :=
  rfl

@[simp]
theorem walk_cons (stmt : Stmt) (code : List Stmt) :
    walk next a (stmt :: code) =
      (next a stmt).bind fun after => walk next after code :=
  rfl

theorem walk_append (body code : List Stmt) :
    walk next a (body ++ code) =
      (walk next a body).bind fun after => walk next after code :=
  List.foldlM_append

theorem follows_cons {stmt : Stmt} {code : List Stmt}
    (permitted : next a stmt = some b) :
    Follows next a (stmt :: code) ↔ Follows next b code := by
  unfold Follows
  rw [walk_cons, permitted]
  rfl

/-- The first statement is permitted. -/
theorem Follows.head {stmt : Stmt} {code : List Stmt}
    (follows : Follows next a (stmt :: code)) :
    ∃ b, next a stmt = some b ∧ Follows next b code := by
  cases permitted : next a stmt with
  | none =>
      unfold Follows at follows
      rw [walk_cons, permitted] at follows
      cases follows
  | some after => exact ⟨after, rfl, (follows_cons permitted).mp follows⟩

/-- A function body in front of a continuation. -/
theorem follows_append {body code : List Stmt}
    (through : walk next a body = some b) :
    Follows next a (body ++ code) ↔ Follows next b code := by
  unfold Follows
  rw [walk_append, through]
  rfl

end PiKernel.Conc
