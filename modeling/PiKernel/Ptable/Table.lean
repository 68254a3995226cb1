import Mathlib.Data.List.FinRange
import PiKernel.Trap.Processes

/-!
# The process table

The slots of `ptable.proc`, and what the functions of the kernel compute from them while
they hold `ptable.lock`: every loop of `proc_alloc`, `scheduler`, `wakeup1`, `exit` and
`wait` over the table.  The number of slots and of processors is arbitrary.
-/

namespace PiKernel.Ptable

open PiKernel.Trap (ProcState)

variable
    {slots cpus : Nat}

/-- A channel is an address; these are the addresses of different objects. -/
inductive Chan (slots : Nat) where
  | proc (p : Fin slots)
  | sleeplock (l : Nat)
  | object (n : Nat)
  deriving DecidableEq

/-- `struct proc`, less what only the process itself uses. -/
structure Proc (slots : Nat) where
  state : ProcState
  pid : Nat
  parent : Option (Fin slots)
  chan : Option (Chan slots)
  killed : Bool
  /-- The page of the kernel stack, if there is one. -/
  kstack : Option Nat
  priority : Nat
  cpus_allowed : BitVec 32

abbrev Table (slots : Nat) := Fin slots → Proc slots

/-- A slot of the zeroed table. -/
def Proc.zero (slots : Nat) : Proc slots where
  state := .UNUSED
  pid := 0
  parent := none
  chan := none
  killed := false
  kstack := none
  priority := 0
  cpus_allowed := 0

namespace Table

variable
    (t : Table slots)

/-- The address of a slot, or the null pointer. -/
def address (p : Option (Fin slots)) : Option (Chan slots) :=
  p.map .proc

/-! ## The loops of the source -/

/-- `proc_alloc` takes the first slot that is `UNUSED`. -/
def unused : Option (Fin slots) :=
  (List.finRange slots).find? fun p => (t p).state = .UNUSED

/-- May `scheduler` run the process at this priority? -/
def runs (c : Fin cpus) (pri : Nat) (p : Fin slots) : Bool :=
  (t p).state = .RUNNABLE ∧ (t p).priority = pri ∧
    ((t p).cpus_allowed.sshiftRight c).getLsbD 0

/-- The loops of `scheduler`. -/
def pick (c : Fin cpus) : Option (Fin slots) :=
  [1, 0].findSome? fun pri => (List.finRange slots).find? (t.runs c pri)

/-- `wakeup1` -/
def wakeup1 (chan : Option (Chan slots)) : Table slots := fun p =>
  if (t p).state = .SLEEPING ∧ (t p).chan = chan then { t p with state := .RUNNABLE }
  else t p

/-- One round of the loop of `exit`. -/
def passOn (me : Fin slots) (initproc : Option (Fin slots)) (p : Fin slots) : Table slots :=
  if (t p).parent = some me then
    let t' : Table slots := Function.update t p { t p with parent := initproc }
    if (t' p).state = .ZOMBIE then t'.wakeup1 (address initproc) else t'
  else
    t

/-- What `exit` does to the table: the last part of it holds `ptable.lock`. -/
def exit (me : Fin slots) (initproc : Option (Fin slots)) : Table slots :=
  let t : Table slots := t.wakeup1 (address (t me).parent)
  let t : Table slots := (List.finRange slots).foldl (fun t p => passOn t me initproc p) t
  Function.update t me { t me with state := .ZOMBIE }

/-- `havekids` of `wait` -/
def havekids (me : Fin slots) : Bool :=
  (List.finRange slots).any fun p => (t p).parent = some me

/-- The slot is of a child that is a zombie. -/
def zombieChild (me p : Fin slots) : Bool :=
  (t p).parent = some me ∧ (t p).state = .ZOMBIE

/-- The first child that `wait` finds to be a zombie. -/
def zombie (me : Fin slots) : Option (Fin slots) :=
  (List.finRange slots).find? (t.zombieChild me)

/-- `wait` gives up the slot of a zombie. -/
def reap (p : Fin slots) : Table slots :=
  Function.update t p
    { t p with
      killed := false
      state := .UNUSED
      pid := 0
      parent := none }

/-- `proc_alloc` fills a slot. -/
def alloc (p : Fin slots) (kstack pid : Nat) : Table slots :=
  Function.update t p
    { t p with
      kstack := some kstack
      state := .EMBRYO
      pid := pid
      priority := 0
      cpus_allowed := BitVec.allOnes 32 }

/-! ## What the loops find -/

variable {t}

theorem unused_state {p : Fin slots} (found : t.unused = some p) :
    (t p).state = .UNUSED := by
  simpa using List.find?_some found

theorem pick_state {c : Fin cpus} {p : Fin slots} (found : t.pick c = some p) :
    (t p).state = .RUNNABLE := by
  rcases List.exists_of_findSome?_eq_some found with ⟨pri, _, found⟩
  have chosen := List.find?_some found
  simp only [runs, decide_eq_true_eq] at chosen
  exact chosen.1

theorem zombieChild_iff {me p : Fin slots} :
    t.zombieChild me p ↔ (t p).parent = some me ∧ (t p).state = .ZOMBIE := by
  simp [zombieChild]

theorem zombie_state {me p : Fin slots} (found : t.zombie me = some p) :
    (t p).parent = some me ∧ (t p).state = .ZOMBIE :=
  zombieChild_iff.mp (List.find?_some found)

theorem zombie_none {me : Fin slots} (missing : t.zombie me = none) (p : Fin slots)
    (child : (t p).parent = some me) : (t p).state ≠ .ZOMBIE := by
  intro state
  exact List.find?_eq_none.mp missing p (List.mem_finRange p)
    (zombieChild_iff.mpr ⟨child, state⟩)

theorem havekids_iff {me : Fin slots} :
    t.havekids me ↔ ∃ p, (t p).parent = some me := by
  simp [havekids]

/-! ## What the loops change -/

theorem wakeup1_apply (chan : Option (Chan slots)) (p : Fin slots) :
    t.wakeup1 chan p =
      { t p with
        state :=
          if (t p).state = .SLEEPING ∧ (t p).chan = chan then .RUNNABLE
          else (t p).state } := by
  unfold wakeup1
  split <;> rfl

theorem passOn_apply (me : Fin slots) (initproc : Option (Fin slots)) (p q : Fin slots) :
    t.passOn me initproc p q =
      { t q with
        parent := if q = p ∧ (t q).parent = some me then initproc else (t q).parent
        state :=
          if (t q).state = .SLEEPING ∧ (t q).chan = address initproc ∧
              t.zombieChild me p then .RUNNABLE
          else (t q).state } := by
  unfold passOn zombieChild
  by_cases child : (t p).parent = some me
  · rw [if_pos child]
    by_cases same : q = p
    · subst same
      cases state : (t q).state <;>
        simp [Function.update_self, wakeup1_apply, child, state]
    · cases state : (t p).state <;>
        simp [wakeup1_apply, child, state, same]
  · rw [if_neg child]
    have other : ¬ (q = p ∧ (t q).parent = some me) := by
      rintro ⟨rfl, parent⟩
      exact child parent
    simp [child, other]

theorem zombieChild_passOn (me : Fin slots) (initproc : Option (Fin slots)) {p q : Fin slots}
    (other : q ≠ p) :
    (t.passOn me initproc p).zombieChild me q = t.zombieChild me q := by
  unfold zombieChild
  rw [passOn_apply]
  simp only [other, false_and, if_false]
  split
  · next asleep => simp [asleep.1]
  · rfl

/-- The loop of `exit` over some of the slots. -/
theorem foldl_passOn (me : Fin slots) (initproc : Option (Fin slots))
    (items : List (Fin slots)) (distinct : items.Nodup) (t : Table slots) (q : Fin slots) :
    items.foldl (fun t p => passOn t me initproc p) t q =
      { t q with
        parent := if q ∈ items ∧ (t q).parent = some me then initproc else (t q).parent
        state :=
          if (t q).state = .SLEEPING ∧ (t q).chan = address initproc ∧
              items.any (t.zombieChild me) then .RUNNABLE
          else (t q).state } := by
  induction items generalizing t with
  | nil => simp
  | cons p rest ih =>
      rcases List.nodup_cons.mp distinct with ⟨fresh, distinct⟩
      have zombies : rest.any ((t.passOn me initproc p).zombieChild me) =
          rest.any (t.zombieChild me) := by
        rw [List.any_eq, List.any_eq, decide_eq_decide]
        apply exists_congr
        intro z
        apply and_congr_right
        intro mem
        rw [zombieChild_passOn me initproc (fun same => fresh (same ▸ mem) : z ≠ p)]
      rw [List.foldl_cons, ih distinct, zombies, passOn_apply, List.any_cons]
      dsimp only
      have parent : (if q ∈ rest ∧
            (if q = p ∧ (t q).parent = some me then initproc else (t q).parent) = some me
          then initproc
          else if q = p ∧ (t q).parent = some me then initproc else (t q).parent) =
          if q ∈ p :: rest ∧ (t q).parent = some me then initproc else (t q).parent := by
        by_cases same : q = p
        · simp [same, fresh]
        · simp [same]
      rw [parent]
      cases t.zombieChild me p with
      | true =>
          by_cases asleep : (t q).state = .SLEEPING ∧ (t q).chan = address initproc
          · simp [asleep]
          · simp [← and_assoc, asleep]
      | false => simp

/-- A process wakes up when its child exits, or when a zombie is handed to it. -/
def wakes (t : Table slots) (me : Fin slots) (initproc : Option (Fin slots))
    (q : Fin slots) : Bool :=
  (t q).state = .SLEEPING ∧
    ((t q).chan = address (t me).parent ∨
      (t q).chan = address initproc ∧ (List.finRange slots).any (t.zombieChild me))

theorem exit_apply (me : Fin slots) (initproc : Option (Fin slots)) (q : Fin slots) :
    t.exit me initproc q =
      { t q with
        parent := if (t q).parent = some me then initproc else (t q).parent
        state :=
          if q = me then .ZOMBIE
          else if t.wakes me initproc q then .RUNNABLE
          else (t q).state } := by
  let t' : Table slots := t.wakeup1 (address (t me).parent)
  have woken (p : Fin slots) : t' p =
      { t p with
        state :=
          if (t p).state = .SLEEPING ∧ (t p).chan = address (t me).parent then .RUNNABLE
          else (t p).state } := wakeup1_apply _ p
  have zombies : t'.zombieChild me = t.zombieChild me := by
    funext p
    unfold zombieChild
    rw [woken]
    dsimp only
    split
    · next asleep => simp [asleep.1]
    · rfl
  have loop (p : Fin slots) :=
    foldl_passOn me initproc (List.finRange slots) (List.nodup_finRange slots) t' p
  simp only [List.mem_finRange, true_and, zombies, woken] at loop
  have whole : t.exit me initproc =
      let after := (List.finRange slots).foldl (fun t p => passOn t me initproc p) t'
      Function.update after me { after me with state := .ZOMBIE } := rfl
  rw [whole]
  dsimp only
  by_cases same : q = me
  · subst same
    rw [Function.update_self, loop]
    simp
  · rw [Function.update_of_ne same, loop, if_neg same]
    by_cases asleep : (t q).state = .SLEEPING
    · by_cases called : (t q).chan = address (t me).parent
      · simp [wakes, asleep, called]
      · simp [wakes, asleep, called]
    · simp [wakes, asleep]

end Table

end PiKernel.Ptable
