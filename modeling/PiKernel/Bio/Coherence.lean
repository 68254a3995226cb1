import PiKernel.Bio.Refine
import PiKernel.Conc.Schedule

/-!
# Coherence of the buffer cache

`Coherent` lists what holds in every configuration of the users next to the
configuration of the array that explains it.  The cache over the disk is then a
single array of blocks: a block is read as it was written last, whether it has
been committed or not, and wherever its buffers were recycled in between.

Two of the laws are weaker than one would write down first.  All buffers carry
device 0 and sector 0 after `binit`, so that only buffers which `bget` has used
are unique.  And `brelse` gives up the sleep-lock before it decrements `refcnt`.
-/

namespace PiKernel.Bio

open PiKernel.Conc

variable {Pid : Type} [DecidableEq Pid] [Fintype Pid]

variable {dry : Prop} {quota : Finset Nat → Bool} {log : Logging.Log} {disk : Nat → Block}
    {g : Joint Pid} {p : Pid} {i : Fin NBUF} {b : Nat}

/-- A buffer in use belongs to a block of the file system. -/
theorem Joint.Inv.inUse (inv : g.Inv quota log disk) (used : g.cache.dev i ≠ 0) :
    ∃ b, g.cache.Caches i b := by
  apply inv.number
  by_contra other
  exact used (inv.unused i other).1

/-- The code of `bio.c` panics for want of buffers only. -/
theorem Matches.panics {message : String} (inv : g.Inv quota log disk)
    (left : Matches dry (g.cache.pointer p) (g.phase p) (g.abs.prog p) (.panic message)) :
    message = "bget: no buffers\n" ∧ dry ∨ LogPanic message := by
  generalize g.phase p = phase at left
  generalize current : g.abs.prog p = rest at left
  cases left with
  | between same =>
      cases rest with
      | ret value => cases same
      | act high rest => cases high <;> cases same
      | panic message =>
          cases same
          exact Or.inr ((promises_kept inv.run).panic current)
  | noBuffers starved => exact Or.inl ⟨rfl, starved⟩

/-- Executes a schedule of calls. -/
def replay (quota : Finset Nat → Bool) (events : List (Event Pid Use))
    (config : Config Act Pid (Cache Pid)) : Option (Config Act Pid (Cache Pid)) :=
  (cacheUsers quota).replay
    (fun use s p => use.permitted quota (s.holds p) (s.current p))
    (fun use => use.program.expand body) events config

omit [Fintype Pid] in
theorem replay_reachable {events : List (Event Pid Use)}
    {config config' : Config Act Pid (Cache Pid)}
    (replayed : replay quota events config = some config') :
    (cacheUsers quota).Reachable config config' := by
  apply System.replay_reachable _ replayed
  intro use s p permitted
  exact ⟨use, permitted, rfl⟩

/-- A call and the given number of its steps. -/
def callFor (p : Pid) (use : Use) (steps : Nat) : List (Event Pid Use) :=
  .call p use :: List.replicate steps (.run p)

/-- `refcnt` counts the processes that hold the buffer or wait for it. -/
def Counted (s : Cache Pid) : Prop :=
  ∀ i, s.refcnt i = holders (s.lock i) + countAt s.waiting i

/-- A block in `log.lh` is in a buffer. -/
def Kept (s : Cache Pid) : Prop :=
  ∀ b ∈ s.log.lh.blocks, ∃ i, s.Caches i b

instance (s : Cache Pid) : Decidable (Counted s) :=
  inferInstanceAs (Decidable (∀ _, _))

instance (s : Cache Pid) : Decidable (Kept s) :=
  inferInstanceAs (Decidable (∀ _ ∈ _, _))

end PiKernel.Bio
