import PiKernel.Logging.Code
import PiKernel.Conc.Schedule
import Mathlib.Data.Fintype.Card
import Mathlib.Algebra.BigOperators.Group.Finset.Basic

/-!
# The processes that use the log

Every process repeats operations: `begin_op`, any number of reads and writes
of blocks it holds, `end_op`.  Blocks may also be read outside an operation,
as `fileread` does.  A write changes the data of a held buffer and calls
`log_write` on it; the layout of the disk keeps the log area out of reach of
the callers.  `quota` bounds the set of blocks that one operation logs.
-/

namespace PiKernel.Logging

open PiKernel.Conc
open PiKernel.Conc.Prog (perform)

variable {Pid : Type} [DecidableEq Pid]

/-- What a process outside `log.c` may call. -/
inductive Call where
  | beginOp
  | endOp
  | bread (b : Nat)
  | load (b : Nat)
  | write (b : Nat) (data : Block)
  | brelse (b : Nat)

def Call.program : Call → Prog Act Unit
  | .beginOp => Logging.beginOp
  | .endOp => Logging.endOp
  | .bread b => perform (.bread b)
  | .load b => do
      let _ ← perform (.load b)
  | .write b data => do
      perform (.store b data)
      logWrite b
  | .brelse b => perform (.brelse b)

/-- A home block: its number fits `uint32_t` and lies outside the log area. -/
def Log.Home (log : Log) (b : Nat) : Prop :=
  b < 2 ^ 32 ∧ ¬ log.Area b

instance (log : Log) (b : Nat) : Decidable (log.Home b) :=
  inferInstanceAs (Decidable (_ ∧ _))

/-- The order in which a process makes its calls. -/
def Call.permitted (quota : Finset Nat → Bool) (s : State Pid) (p : Pid) :
    Call → Bool
  | .beginOp => (s.current p).isNone
  | .endOp => (s.current p).isSome
  | .bread _ => true
  | .load b => s.holder b = some p
  | .write b _ =>
      s.holder b = some p && s.log.Home b &&
        (s.current p).any fun ops => quota (insert b ops)
  | .brelse b => s.holder b = some p

/-- Processes that call the log in any interleaving. -/
def processes (quota : Finset Nat → Bool) : System Act Pid (State Pid) where
  exec := exec
  task s p program :=
    ∃ call : Call, call.permitted quota s p = true ∧ program = call.program

/-- Nothing is in progress and `log.lh` is empty, as `initlog` leaves it. -/
def initial (log : Log) (disk : Nat → Block) : Config Act Pid (State Pid) where
  shared :=
    { view := disk
      disk := disk
      holder := fun _ => none
      log :=
        { start := log.start
          size := log.size
          outstanding := 0
          committing := false
          lh := { log.lh with n := 0 } }
      asleep := fun _ => false
      dirty := fun _ => false
      current := fun _ => none
      finished := []
      logged := fun _ => none
      written := [] }
  prog _ := .ret ()

/-- The log of the superblock that `mkfs` writes, with `log.lh` empty. -/
def mkfsLog : Log where
  start := 2
  size := LOGSIZE
  outstanding := 0
  committing := false
  lh := { n := 0, block := fun _ => 0 }

/-- Executes a schedule of calls. -/
def replay (quota : Finset Nat → Bool) (events : List (Event Pid Call))
    (config : Config Act Pid (State Pid)) : Option (Config Act Pid (State Pid)) :=
  (processes quota).replay (fun call s p => call.permitted quota s p)
    Call.program events config

theorem Call.task {quota : Finset Nat → Bool} (call : Call) (s : State Pid)
    (p : Pid) (permitted : call.permitted quota s p = true) :
    (processes quota).task s p call.program :=
  ⟨call, permitted, rfl⟩

theorem replay_reachable {quota : Finset Nat → Bool}
    {events : List (Event Pid Call)} {config config' : Config Act Pid (State Pid)}
    (replayed : replay quota events config = some config') :
    (processes quota).Reachable config config' :=
  System.replay_reachable Call.task replayed

/-! ## Log absorption -/

namespace LogHeader

variable {lh : LogHeader} {b : Nat}

theorem mem_blocks {b : Nat} :
    b ∈ lh.blocks ↔ ∃ i, i < lh.n ∧ lh.block i = b := by
  simp [blocks]

theorem block_mem_blocks {i : Nat} (below : i < lh.n) :
    lh.block i ∈ lh.blocks :=
  mem_blocks.mpr ⟨i, below, rfl⟩

/-- The entries below `n` are pairwise different. -/
def Distinct (lh : LogHeader) : Prop :=
  ∀ i j, i < lh.n → j < lh.n → lh.block i = lh.block j → i = j

/-- The loop stops at the entry of `b`, or at `n` when there is none. -/
theorem find_spec (lh : LogHeader) (b : Nat) :
    lh.find b < lh.n ∧ lh.block (lh.find b) = b ∨
      lh.find b = lh.n ∧ b ∉ lh.blocks := by
  unfold find
  cases found : (List.range lh.n).find? fun i => lh.block i == b with
  | none =>
      right
      refine ⟨rfl, fun logged => ?_⟩
      rcases mem_blocks.mp logged with ⟨i, below, same⟩
      have missed := List.find?_eq_none.mp found i (List.mem_range.mpr below)
      simp [same] at missed
  | some i =>
      left
      have below := List.mem_range.mp (List.mem_of_find?_eq_some found)
      have same := List.find?_some found
      exact ⟨below, by simpa using same⟩

/-- A block that is already in the log is absorbed. -/
theorem absorb_of_mem (logged : b ∈ lh.blocks) : lh.absorb b = lh := by
  rcases find_spec lh b with ⟨below, same⟩ | ⟨_, missed⟩
  · have other : lh.find b ≠ lh.n := by omega
    cases lh
    simp only [absorb, other, if_false] at same ⊢
    congr 1
    exact Function.update_eq_self_iff.mpr same.symm
  · exact absurd logged missed

theorem absorb_of_not_mem (fresh : b ∉ lh.blocks) :
    lh.absorb b =
      { n := lh.n + 1, block := Function.update lh.block lh.n b } := by
  rcases find_spec lh b with ⟨below, same⟩ | ⟨atEnd, _⟩
  · exact absurd (mem_blocks.mpr ⟨_, below, same⟩) fresh
  · simp [absorb, atEnd]

theorem mem_blocks_absorb {x : Nat} :
    x ∈ (lh.absorb b).blocks ↔ x = b ∨ x ∈ lh.blocks := by
  by_cases logged : b ∈ lh.blocks
  · rw [absorb_of_mem logged]
    constructor
    · exact Or.inr
    · rintro (rfl | earlier)
      · exact logged
      · exact earlier
  · rw [absorb_of_not_mem logged]
    simp only [mem_blocks]
    constructor
    · rintro ⟨i, below, rfl⟩
      by_cases last : i = lh.n
      · subst last
        left
        exact Function.update_self _ _ _
      · right
        exact ⟨i, by omega, by simp [last]⟩
    · rintro (rfl | ⟨i, below, rfl⟩)
      · exact ⟨lh.n, by simp, by simp⟩
      · have other : i ≠ lh.n := by omega
        exact ⟨i, Nat.lt_succ_of_lt below, by simp [other]⟩

theorem Distinct.absorb (distinct : lh.Distinct) : (lh.absorb b).Distinct := by
  by_cases logged : b ∈ lh.blocks
  · rw [absorb_of_mem logged]
    exact distinct
  · rw [absorb_of_not_mem logged]
    have missed : ∀ i, i < lh.n → lh.block i ≠ b := fun i below same =>
      logged (mem_blocks.mpr ⟨i, below, same⟩)
    intro i j belowI belowJ
    simp only [Function.update_apply] at belowI belowJ ⊢
    split <;> split
    · omega
    · exact fun same => absurd same.symm (missed j (by omega))
    · exact fun same => absurd same (missed i (by omega))
    · exact distinct i j (by omega) (by omega)

theorem absorb_n_le : (lh.absorb b).n ≤ lh.n + 1 := by
  unfold absorb
  dsimp only
  split <;> omega

end LogHeader

end PiKernel.Logging
