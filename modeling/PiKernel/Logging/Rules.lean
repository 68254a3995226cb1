import PiKernel.Logging.Invariant
import PiKernel.Conc.Protocol

/-!
# Rules for the code of the log

The protocol of the log: what each action owes to the others, and one rule for
every action that takes the local state before it to the local state after it.
The functions of `log.c` are then safe by composing the rules.

The rules are about runs in which `log_write` is entered with room left when
it gets `log.lock`, which its unlocked test does not guarantee.
-/

namespace PiKernel.Logging

open PiKernel.Conc
open PiKernel.Conc.Prog (perform)
open LogHeader

variable {Pid : Type} [DecidableEq Pid] [Fintype Pid]

/-- The space test of `log_write` still holds when it has taken `log.lock`. -/
def roomy : {β : Type} → Act β → Pid → State Pid → Bool
  | _, .absorb _, _, s => !s.log.tooBig
  | _, _, _, _ => true

/-- What an action requires of the state in which a process takes it. -/
def Act.Ok : {β : Type} → Act β → Pid → State Pid → Prop
  | _, .bread _, _, _ => True
  | _, .load b, p, s => s.holder b = some p
  | _, .store b data, p, s =>
      s.holder b = some p ∧
        ((s.current p).isSome ∧ s.log.committing = false ∧ s.log.Home b ∨
          s.log.committing = true ∧ (s.log.Area b ∨ data = s.view b))
  | _, .bwrite b, p, s =>
      s.holder b = some p ∧ s.log.committing = true ∧ ∀ q, s.current q = none
  | _, .brelse b, p, s =>
      s.holder b = some p ∧ (s.dirty b = true ∨ s.disk b = s.view b)
  | _, .readLog, _, _ => True
  | _, .setHeader _, _, _ => False
  | _, .clearHeader, _, s =>
      s.log.committing = true ∧ (∀ q, s.current q = none) ∧
        ∀ b, s.dirty b = false
  | _, .beginOp, p, s => s.current p = none
  | _, .endOp, p, s => (s.current p).isSome ∧ s.log.committing = false
  | _, .endCommit, _, s =>
      s.log.committing = true ∧ (∀ q, s.current q = none) ∧ s.log.lh.n = 0 ∧
        ∀ b, Ended s.finished b → ∃ v, s.logged b = some v ∧ s.disk b = v
  | _, .absorb b, p, s =>
      s.holder b = some p ∧ (s.current p).isSome ∧ s.log.Home b ∧
        s.log.committing = false ∧ 0 < s.log.outstanding

/-- The protocol that the processes follow. -/
def protocol (quota : Finset Nat → Bool) :
    Protocol ((processes quota : System Act Pid (State Pid)).restrict roomy)
      (Ghost Pid) Own where
  inv g s := g.state = s ∧ Inv g
  own := Ghost.own
  ok := Act.Ok
  mayPanic message := message = "log_write: too big a transaction\n"
  rest _ mine := mine.hand = none ∧ mine.commit = none

variable {quota : Finset Nat → Bool} {p : Pid} {b : Nat} {mine : Own}

/-! ## What the local state says -/

namespace Ghost

variable {g : Ghost Pid}

omit [Fintype Pid] in
theorem held_own {d : Block} (held : (g.own p).held b = some d) :
    g.state.holder b = some p ∧ g.state.view b = d := by
  simp only [own] at held
  split at held
  · exact ⟨‹_›, Option.some.inj held⟩
  · cases held

omit [Fintype Pid] in
theorem commit_own {log : Log} {stage : Stage}
    (commit : (g.own p).commit = some (log, stage)) :
    g.commit = some (p, stage) ∧ g.state.log = log := by
  simp only [own, Option.bind_eq_some_iff] at commit
  rcases commit with ⟨⟨q, stage'⟩, running, same⟩
  simp only at same
  split at same
  · cases same
    exact ⟨by rw [running, ‹q = p›], rfl⟩
  · cases same

end Ghost

/-! ## One action -/

section Rules

variable {α : Type}

/-- An action is safe when it keeps the invariant and its own part alone. -/
theorem act_safe {β : Type} {action : Act β} {post : β → Own → Prop}
    (rule : ∀ g : Ghost Pid, Inv g → g.own p = mine →
      action.Ok p g.state ∧
        (exec action p g.state = .blocked ∨ roomy action p g.state = false ∨
          ∃ value g', exec action p g.state = .done value g'.state ∧ Inv g' ∧
            (∀ q, q ≠ p → g'.own q = g.own q) ∧ post value (g'.own p))) :
    (protocol quota).Safe p (perform action) mine post := by
  rintro g _ ⟨rfl, inv⟩ owned
  rcases rule g inv owned with ⟨ok, blocked | late | ⟨value, g', effect, kept⟩⟩
  · refine ⟨ok, ?_⟩
    simp only [System.restrict, processes, blocked, ite_self]
    trivial
  · refine ⟨ok, ?_⟩
    simp only [System.restrict, late, if_neg Bool.false_ne_true]
    trivial
  · refine ⟨ok, ?_⟩
    simp only [System.restrict, processes, effect]
    split
    · exact ⟨g', ⟨rfl, kept.1⟩, kept.2.1, kept.2.2⟩
    · trivial

omit [Fintype Pid] in
/-- Changing the holder of a free or own block is not seen by other processes. -/
theorem own_holder {g : Ghost Pid} {q : Pid} {new : Option Pid}
    (old : g.state.holder b ≠ some q) (new' : new ≠ some q) :
    Ghost.own
        { g with
          state :=
            { g.state with
              holder := Function.update g.state.holder b new } } q =
      g.own q := by
  apply Ghost.own_eq <;> try first | rfl | exact fun _ _ => rfl
  intro x
  by_cases same : x = b
  · subst same
    simp [old, new']
  · simp [same]

theorem bread_safe {post : Unit → Own → Prop}
    (next : ∀ d, post ()
      { mine with held := Function.update mine.held b (some d) }) :
    (protocol quota).Safe p (perform (.bread b)) mine post := by
  apply act_safe
  rintro g inv rfl
  refine ⟨trivial, ?_⟩
  by_cases free : g.state.holder b = none
  · refine Or.inr (Or.inr ⟨(), _, ?_, inv.bread (p := p) free, ?_, ?_⟩)
    · exact if_pos free
    · intro q other
      exact own_holder (by simp [free]) (by simpa using other.symm)
    · convert next (g.state.view b) using 1
      ext1 <;> try rfl
      funext x
      by_cases same : x = b
      · subst same
        simp [Ghost.own]
      · simp [Ghost.own, same]
  · exact Or.inl (if_neg free)

theorem brelse_safe {post : Unit → Own → Prop} {d : Block}
    (held : mine.held b = some d) (hand : mine.hand ≠ some b)
    (next : post () { mine with held := Function.update mine.held b none }) :
    (protocol quota).Safe p (perform (.brelse b)) mine post := by
  apply act_safe
  rintro g inv rfl
  have holder := (Ghost.held_own held).1
  have synced : g.state.dirty b = true ∨ g.state.disk b = g.state.view b := by
    rcases inv.synced b with dirty | same | ⟨q, changed⟩
    · exact Or.inl dirty
    · exact Or.inr same
    · have owner := inv.handHeld q b changed
      rw [holder] at owner
      cases owner
      exact absurd changed hand
  refine ⟨⟨holder, synced⟩,
    Or.inr (Or.inr ⟨(), _, rfl, inv.brelse holder hand, ?_, ?_⟩)⟩
  · intro q other
    exact own_holder (by simpa [holder] using other.symm) (by simp)
  · convert next using 1
    ext1 <;> try rfl
    funext x
    by_cases same : x = b
    · subst same
      simp [Ghost.own]
    · simp [Ghost.own, same]

theorem load_safe {post : Block → Own → Prop} {d : Block}
    (held : mine.held b = some d) (next : post d mine) :
    (protocol quota).Safe p (perform (.load b)) mine post := by
  apply act_safe
  rintro g inv rfl
  rcases Ghost.held_own held with ⟨holder, rfl⟩
  exact ⟨holder,
    Or.inr (Or.inr ⟨_, g, rfl, inv, fun _ _ => rfl, next⟩)⟩

omit [Fintype Pid] in
/-- A change is seen by the holder only. -/
theorem own_store {g : Ghost Pid} {data : Block} {hand : Pid → Option Nat}
    {q : Pid} (holder : g.state.holder b ≠ some q) (same : hand q = g.hand q) :
    Ghost.own
        { g with
          state :=
            { g.state with view := Function.update g.state.view b data }
          hand := hand } q =
      g.own q := by
  apply Ghost.own_eq <;> try first | rfl | exact fun _ => Iff.rfl
  · intro x held
    apply Function.update_of_ne
    rintro rfl
    exact holder held
  · exact same

omit [Fintype Pid] in
theorem own_store_self {g : Ghost Pid} {data : Block}
    (holder : g.state.holder b = some p) :
    Ghost.own
        { g with
          state :=
            { g.state with view := Function.update g.state.view b data }
          hand := Function.update g.hand p (some b) } p =
      { g.own p with
        held := Function.update (g.own p).held b (some data)
        hand := some b } := by
  ext1 <;> try rfl
  · funext x
    by_cases same : x = b
    · subst same
      simp [Ghost.own, holder]
    · simp [Ghost.own, same]
  · exact Function.update_self ..

/-- An operation changes a home block which it holds. -/
theorem store_op_safe {post : Unit → Own → Prop} {d data : Block}
    {ops : Finset Nat} (held : mine.held b = some d) (hand : mine.hand = none)
    (op : mine.op = some ops) (home : mine.home b)
    (next : post ()
      { mine with
        held := Function.update mine.held b (some data)
        hand := some b }) :
    (protocol quota).Safe p (perform (.store b data)) mine post := by
  apply act_safe
  rintro g inv rfl
  have holder := (Ghost.held_own held).1
  have running : (g.state.current p).isSome := by
    have op' : g.state.current p = some ops := op
    simp [op']
  refine ⟨⟨holder, Or.inl ⟨running, inv.notCommitting running, home⟩⟩,
    Or.inr (Or.inr ⟨(), _, rfl,
      inv.store holder hand (Or.inl ⟨running, home⟩), ?_, ?_⟩)⟩
  · intro q other
    exact own_store (by simpa [holder] using other.symm)
      (Function.update_of_ne other ..)
  · rw [own_store_self holder]
    exact next

/-! ## The steps of a commit -/

variable {log : Log} {stage : Stage}

omit [DecidableEq Pid] in
theorem Ghost.running_commit {g : Ghost Pid} (inv : Inv g)
    (commit : g.commit = some (p, stage)) :
    g.state.log.committing = true ∧ ∀ q, g.state.current q = none := by
  rw [inv.committing, commit]
  exact ⟨rfl, inv.quiet (by simp [commit])⟩

omit [DecidableEq Pid] in
theorem Inv.loggable {g : Ghost Pid} (inv : Inv g)
    (some : 0 < g.state.log.lh.n) : g.state.log.Loggable where
  room := inv.room
  slots := by
    have slots := inv.slots
    omega
  distinct := inv.distinct
  small i below := (inv.home _ (block_mem_blocks below)).1
  home i below := (inv.home _ (block_mem_blocks below)).2

/-- The commit changes a block of the log area. -/
theorem store_area_safe {post : Unit → Own → Prop} {d data : Block}
    (held : mine.held b = some d) (hand : mine.hand = none)
    (commit : mine.commit = some (log, stage)) (area : log.Area b)
    (next : post ()
      { mine with
        held := Function.update mine.held b (some data)
        hand := some b }) :
    (protocol quota).Safe p (perform (.store b data)) mine post := by
  apply act_safe
  rintro g inv rfl
  have holder := (Ghost.held_own held).1
  rcases Ghost.commit_own commit with ⟨running, rfl⟩
  refine ⟨⟨holder, Or.inr ⟨(Ghost.running_commit inv running).1, Or.inl area⟩⟩,
    Or.inr (Or.inr ⟨(), _, rfl,
      inv.store holder hand (Or.inr ⟨⟨_, running⟩, area⟩), ?_, ?_⟩)⟩
  · intro q other
    exact own_store (by simpa [holder] using other.symm)
      (Function.update_of_ne other ..)
  · rw [own_store_self holder]
    exact next

/-- Copying a slot to its home changes nothing: the cached copy is as new. -/
theorem store_home_safe {post : Unit → Own → Prop} {d data : Block} {i k : Nat}
    (source : mine.held (log.start + i + 1) = some data)
    (target : mine.held (log.lh.block i) = some d) (hand : mine.hand = none)
    (commit : mine.commit = some (log, .installing k)) (below : i < log.lh.n)
    (next : post () mine) :
    (protocol quota).Safe p (perform (.store (log.lh.block i) data)) mine post := by
  apply act_safe
  rintro g inv rfl
  rcases Ghost.held_own target with ⟨holder, _⟩
  rcases Ghost.held_own source with ⟨_, rfl⟩
  rcases Ghost.commit_own commit with ⟨running, rfl⟩
  have ok := inv.loggable (by omega)
  rcases inv.stage p _ running with ⟨_, _, _, slots, _⟩
  have outside : ¬ g.state.log.Home (g.state.log.start + i + 1) := by
    have room := ok.slots
    exact fun home => home.2 ⟨by omega, by omega⟩
  have same : g.state.view (g.state.log.start + i + 1) =
      g.state.view (g.state.log.lh.block i) := by
    rw [← slots i below]
    rcases inv.synced (g.state.log.start + i + 1) with dirty | synced | ⟨q, changed⟩
    · rw [inv.notDirty outside] at dirty
      cases dirty
    · exact synced.symm
    · rcases inv.handOfCommit running changed with ⟨rfl, _⟩
      have empty : g.hand q = none := hand
      rw [empty] at changed
      cases changed
  refine ⟨⟨holder, Or.inr
      ⟨(Ghost.running_commit inv running).1, Or.inr same⟩⟩,
    Or.inr (Or.inr ⟨(), g, ?_, inv, fun _ _ => rfl, next⟩)⟩
  rw [exec, same, Function.update_eq_self]

/-- A write of the commit takes it to the next stage. -/
theorem bwrite_safe {post : Unit → Own → Prop} {d : Block} (stage' : Stage)
    (held : mine.held b = some d) (hand : mine.hand = none ∨ mine.hand = some b)
    (commit : mine.commit = some (log, stage))
    (later : ∀ view disk dirty finished,
      (∀ x d, mine.held x = some d → view x = d) →
      stage.Holds log view disk dirty finished →
        stage'.Holds log view (Function.update disk b (view b))
          (Function.update dirty b false) finished)
    (next : post () { mine with hand := none, commit := some (log, stage') }) :
    (protocol quota).Safe p (perform (.bwrite b)) mine post := by
  apply act_safe
  rintro g inv rfl
  rcases Ghost.held_own held with ⟨holder, _⟩
  rcases Ghost.commit_own commit with ⟨running, rfl⟩
  rcases Ghost.running_commit inv running with ⟨committing, quiet⟩
  have holds := later _ _ _ _ (fun _ _ held => (Ghost.held_own held).2)
    (inv.stage p _ running)
  refine ⟨⟨holder, committing, quiet⟩,
    Or.inr (Or.inr ⟨(), _, rfl, inv.bwrite running hand holds, ?_, ?_⟩)⟩
  · intro q other
    apply Ghost.own_eq <;> try first | rfl | exact fun _ => Iff.rfl
    · exact fun _ _ => rfl
    · cases changed : g.hand q with
      | none => rfl
      | some x => exact absurd (inv.handOfCommit running changed).1 other
    · simp [Ghost.own, running, other.symm]
  · convert next using 1
    ext1 <;> try rfl
    simp [Ghost.own]

theorem readLog_safe {post : Log → Own → Prop} (next : ∀ log, post log mine) :
    (protocol quota).Safe p (perform .readLog) mine post := by
  apply act_safe
  rintro g inv rfl
  exact ⟨trivial, Or.inr (Or.inr ⟨_, g, rfl, inv, fun _ _ => rfl, next _⟩)⟩

/-- The commit finds `struct log` as it left it. -/
theorem readLog_commit_safe {post : Log → Own → Prop}
    (commit : mine.commit = some (log, stage))
    (next : (0 < log.lh.n → log.Loggable) → post log mine) :
    (protocol quota).Safe p (perform .readLog) mine post := by
  apply act_safe
  rintro g inv rfl
  rcases Ghost.commit_own commit with ⟨_, rfl⟩
  exact ⟨trivial,
    Or.inr (Or.inr ⟨_, g, rfl, inv, fun _ _ => rfl, next inv.loggable⟩)⟩

omit [Fintype Pid] in
/-- Only the committing process sees how far the commit has got. -/
theorem own_commit {g : Ghost Pid} {log : Log} {stage' : Stage} {q : Pid}
    (commit : g.commit = some (p, stage)) (other : q ≠ p)
    (home : log.Home = g.state.log.Home) :
    Ghost.own
        { g with
          state := { g.state with log := log }
          commit := some (p, stage') } q =
      g.own q := by
  apply Ghost.own_eq <;> try first | rfl | exact fun _ => Iff.rfl
  · exact fun _ _ => rfl
  · simp [Ghost.own, commit, other.symm]
  · exact home

/-- With nothing logged the commit is done before it starts. -/
theorem readLog_skip_safe {post : Log → Own → Prop} {k : Nat}
    (commit : mine.commit = some (log, .copying k)) (none : log.lh.n = 0)
    (next : post log { mine with commit := some (log, .erased) }) :
    (protocol quota).Safe p (perform .readLog) mine post := by
  apply act_safe
  rintro g inv rfl
  rcases Ghost.commit_own commit with ⟨running, rfl⟩
  refine ⟨trivial,
    Or.inr (Or.inr
      ⟨_, { g with commit := some (p, .erased) }, rfl, inv.skip running none,
        ?_, ?_⟩)⟩
  · intro q other
    exact own_commit running other rfl
  · convert next using 1
    ext1 <;> try rfl
    simp [Ghost.own]

theorem clearHeader_safe {post : Unit → Own → Prop}
    (commit : mine.commit = some (log, .installing log.lh.n))
    (next : post ()
      { mine with
        commit := some ({ log with lh := { log.lh with n := 0 } }, .cleared) }) :
    (protocol quota).Safe p (perform .clearHeader) mine post := by
  apply act_safe
  rintro g inv rfl
  rcases Ghost.commit_own commit with ⟨running, rfl⟩
  have cleared := inv.clearHeader running
  rcases Ghost.running_commit inv running with ⟨committing, quiet⟩
  rcases cleared.stage p _ rfl with ⟨_, _, clean, _⟩
  refine ⟨⟨committing, quiet, clean⟩,
    Or.inr (Or.inr ⟨(), _, rfl, cleared, ?_, ?_⟩)⟩
  · intro q other
    exact own_commit running other rfl
  · convert next using 1
    ext1 <;> try rfl
    simp [Ghost.own]

/-- The commit ends with every logged block at its home. -/
theorem endCommit_safe {post : Unit → Own → Prop}
    (commit : mine.commit = some (log, .erased)) (hand : mine.hand = none)
    (next : post () { mine with commit := none }) :
    (protocol quota).Safe p (perform .endCommit) mine post := by
  apply act_safe
  rintro g inv rfl
  rcases Ghost.commit_own commit with ⟨running, rfl⟩
  rcases Ghost.running_commit inv running with ⟨committing, quiet⟩
  rcases inv.stage p _ running with ⟨zero, clean, _⟩
  have installed : ∀ x, Ended g.state.finished x →
      ∃ v, g.state.logged x = some v ∧ g.state.disk x = v := by
    intro x ended
    rcases inv.loggedSome x (Or.inl ended) with ⟨v, logged⟩
    rcases inv.loggedDisk x v logged with dirty | same
    · rw [clean x] at dirty
      cases dirty
    · exact ⟨v, logged, same⟩
  refine ⟨⟨committing, quiet, zero, installed⟩,
    Or.inr (Or.inr ⟨(), _, rfl, inv.endCommit running hand, ?_, ?_⟩)⟩
  · intro q other
    apply Ghost.own_eq <;> try first | rfl | exact fun _ => Iff.rfl
    · exact fun _ _ => rfl
    · simp [Ghost.own, running, other.symm]
  · exact next

/-! ## Operations -/

omit [Fintype Pid] in
/-- What the committing process knows is unknown to the others. -/
theorem own_noCommit {g : Ghost Pid} {q : Pid} (noCommit : g.commit = none) :
    (g.own q).commit = none := by
  simp [Ghost.own, noCommit]

theorem beginOp_safe {post : Unit → Own → Prop}
    (op : mine.op = none) (next : post () { mine with op := some ∅ }) :
    (protocol quota).Safe p beginOp mine post := by
  rintro g _ ⟨rfl, inv⟩ rfl
  refine ⟨op, ?_⟩
  simp only [System.restrict, processes, roomy, if_true, exec, Ops.beginOp]
  split
  · trivial
  · split
    · exact ⟨_, ⟨rfl, inv.sleep ‹_›⟩, fun q => rfl⟩
    · rename_i admitted
      simp only [Bool.or_eq_true, not_or, Bool.not_eq_true] at admitted
      have noCommit : g.commit = none := by
        simpa [admitted.1] using inv.committing.symm
      refine ⟨_, ⟨rfl, inv.beginOp op admitted.1⟩, ?_, ?_⟩
      · intro q other
        apply Ghost.own_eq <;> try first | rfl | exact fun _ => Iff.rfl
        · exact fun _ _ => rfl
        · exact Function.update_of_ne other ..
        · simp [Ghost.own, noCommit]
      · show post () (Ghost.own _ p)
        convert next using 1
        ext1 <;> try rfl
        · exact Function.update_self ..
        · simp [protocol, Ghost.own, noCommit]

/-- `end_op` finds no commit, and starts one when it ends the last operation. -/
theorem endOp_safe {post : Option Bool → Own → Prop} {ops : Finset Nat}
    (op : mine.op = some ops) (hand : mine.hand = none)
    (commits : ∀ log, post (some true)
      { mine with op := none, commit := some (log, .copying 0) })
    (goesOn : post (some false) { mine with op := none, commit := none }) :
    (protocol quota).Safe p (perform .endOp) mine post := by
  apply act_safe
  rintro g inv rfl
  have op' : g.state.current p = some ops := op
  have running : (g.state.current p).isSome := by simp [op']
  have notCommitting := inv.notCommitting running
  have noCommit := inv.noCommit running
  refine ⟨⟨running, notCommitting⟩, Or.inr (Or.inr ?_)⟩
  have frame : ∀ (asleep : Pid → Bool) (committing : Bool)
      (commit : Option (Pid × Stage)) (q : Pid), q ≠ p →
      (commit = none ∨ ∃ stage, commit = some (p, stage)) →
      Ghost.own
          { g with
            state :=
              { g.state with
                log := { g.state.log with
                  outstanding := g.state.log.outstanding - 1
                  committing := committing }
                asleep := asleep
                current := Function.update g.state.current p none
                finished := ops :: g.state.finished }
            commit := commit } q =
        g.own q := by
    intro asleep committing commit q other whose
    apply Ghost.own_eq <;> try first | rfl | exact fun _ => Iff.rfl
    · exact fun _ _ => rfl
    · exact Function.update_of_ne other ..
    · rw [own_noCommit noCommit]
      rcases whose with rfl | ⟨stage, rfl⟩
      · rfl
      · simp [Ghost.own, other.symm]
  by_cases last : g.state.log.outstanding - 1 = 0
  · have ended := inv.endOp op' hand g.state.asleep fun _ _ => last
    simp only [last, decide_true, if_true] at ended
    refine ⟨some true, _, ?_, ended, fun q other => ?_, ?_⟩
    · simp [exec, Ops.endOp, notCommitting, last, op']
    · have unchanged :=
        frame g.state.asleep true (some (p, .copying 0)) q other (Or.inr ⟨_, rfl⟩)
      rw [last] at unchanged
      exact unchanged
    · convert commits { g.state.log with outstanding := 0, committing := true } using 1
      ext1 <;> try rfl
      · exact Function.update_self ..
      · simp [Ghost.own]
  · have ended := inv.endOp op' hand (fun _ => false) (by simp)
    simp only [last, decide_false, if_false] at ended
    refine ⟨some false, _, ?_, ended, fun q other => ?_, ?_⟩
    · simp [exec, Ops.endOp, Ops.wakeup, notCommitting, last, op']
    · exact frame (fun _ => false) false none q other (Or.inl rfl)
    · convert goesOn using 1
      ext1 <;> try rfl
      exact Function.update_self ..

/-- `log_write` enters the block which the process has changed. -/
theorem absorb_safe {post : Unit → Own → Prop} {d : Block} {ops : Finset Nat}
    (held : mine.held b = some d) (op : mine.op = some ops)
    (hand : mine.hand = some b) (home : mine.home b)
    (next : post ()
      { mine with op := some (insert b ops), hand := none }) :
    (protocol quota).Safe p (perform (.absorb b)) mine post := by
  apply act_safe
  rintro g inv rfl
  have op' : g.state.current p = some ops := op
  have running : (g.state.current p).isSome := by simp [op']
  refine ⟨⟨(Ghost.held_own held).1, running, home, inv.notCommitting running,
    inv.outstandingPos running⟩, Or.inr ?_⟩
  cases late : g.state.log.tooBig with
  | true =>
      left
      simp [roomy, late]
  | false =>
      right
      refine ⟨(), _, rfl, inv.absorb op' hand home late, ?_, ?_⟩
      · intro q other
        apply Ghost.own_eq <;> try first | rfl | exact fun _ => Iff.rfl
        · exact fun _ _ => rfl
        · exact Function.update_of_ne other ..
        · exact Function.update_of_ne other ..
        · rw [own_noCommit (inv.noCommit running)]
          exact own_noCommit (inv.noCommit running)
      · convert next using 1
        ext1 <;> try rfl
        · exact Function.update_self ..
        · simp [Ghost.own, State.absorb, Ops.absorb, op']
        · simp [Ghost.own, inv.noCommit running]

end Rules

end PiKernel.Logging
