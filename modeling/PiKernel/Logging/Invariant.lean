import PiKernel.Logging.Crash
import PiKernel.Conc.Count

/-!
# The invariant of the log

`Ghost` extends the shared state by what the code itself does not record: the
block that a process has changed but not yet logged or written, and how far
the running commit has got.  `Inv` relates both to `struct log`, the buffers
and the disk.  There is one lemma for every action; each says which fields the
action touches and leaves the others to the invariant it started from.
-/

namespace PiKernel.Logging

open PiKernel.Conc
open LogHeader

/-- How far a commit has got. -/
inductive Stage where
  /-- The slots below `k` are copied. -/
  | copying (k : Nat)
  /-- The header is written and the blocks below `k` are installed. -/
  | installing (k : Nat)
  /-- `log.lh.n` is zero, but not yet on disk. -/
  | cleared
  | erased

/-- Logged by an operation that has ended since the last commit. -/
def Ended (finished : List (Finset Nat)) (b : Nat) : Prop :=
  ∃ ops ∈ finished, b ∈ ops

/-- Logged by an operation that is still running. -/
def Running {Pid : Type} (current : Pid → Option (Finset Nat)) (b : Nat) : Prop :=
  ∃ p ops, current p = some ops ∧ b ∈ ops

/-- What a commit has established when it gets to a stage. -/
def Stage.Holds (log : Log) (view disk : Nat → Block) (dirty : Nat → Bool)
    (finished : List (Finset Nat)) : Stage → Prop
  | .copying k =>
      k ≤ log.lh.n ∧ count (disk log.start) = 0 ∧
        (∀ b, b ∈ log.lh.blocks ↔ Ended finished b) ∧
        ∀ i, i < k → disk (log.start + i + 1) = view (log.lh.block i)
  | .installing k =>
      0 < log.size ∧
        (∀ b, b ∈ log.lh.blocks ↔ Ended finished b) ∧
        (∀ b, b ∈ (decode (disk log.start)).blocks ↔ Ended finished b) ∧
        (∀ i, i < log.lh.n →
          disk (log.start + i + 1) = view (log.lh.block i)) ∧
        ∀ i, i < k → dirty (log.lh.block i) = false
  | .cleared =>
      0 < log.size ∧ log.lh.n = 0 ∧ (∀ b, dirty b = false) ∧
        ∀ b, b ∈ (decode (disk log.start)).blocks ↔ Ended finished b
  | .erased =>
      log.lh.n = 0 ∧ (∀ b, dirty b = false) ∧ count (disk log.start) = 0

/-- A stage depends on the contents of the logged blocks only. -/
theorem Stage.Holds.view {log : Log} {view view' disk : Nat → Block}
    {dirty : Nat → Bool} {finished : List (Finset Nat)} {stage : Stage}
    (holds : stage.Holds log view disk dirty finished)
    (same : ∀ b ∈ log.lh.blocks, view' b = view b) :
    stage.Holds log view' disk dirty finished := by
  cases stage with
  | copying k =>
      rcases holds with ⟨bound, zero, members, slots⟩
      refine ⟨bound, zero, members, fun i below => ?_⟩
      rw [slots i below, same _ (block_mem_blocks (by omega))]
  | installing k =>
      rcases holds with ⟨nonempty, members, header, slots, clean⟩
      refine ⟨nonempty, members, header, fun i below => ?_, clean⟩
      rw [slots i below, same _ (block_mem_blocks below)]
  | cleared => exact holds
  | erased => exact holds

/-- The shared state and the progress of its processes. -/
structure Ghost (Pid : Type) where
  state : State Pid
  /-- Changed by a process that has neither logged nor written it yet. -/
  hand : Pid → Option Nat
  /-- The process that runs `commit`. -/
  commit : Option (Pid × Stage)

/-- The part of the ghost state that only its own process changes. -/
@[ext]
structure Own where
  held : Nat → Option Block
  hand : Option Nat
  op : Option (Finset Nat)
  commit : Option (Log × Stage)
  /-- The blocks outside the log, which no process changes. -/
  home : Nat → Prop

variable {Pid : Type} [DecidableEq Pid]

def Ghost.own (g : Ghost Pid) (p : Pid) : Own where
  held b := if g.state.holder b = some p then some (g.state.view b) else none
  hand := g.hand p
  op := g.state.current p
  commit :=
    g.commit.bind fun running =>
      if running.1 = p then some (g.state.log, running.2) else none
  home := g.state.log.Home

/-- A step that leaves alone what a process holds leaves its part alone. -/
theorem Ghost.own_eq {g g' : Ghost Pid} {q : Pid}
    (holder : ∀ b, g'.state.holder b = some q ↔ g.state.holder b = some q)
    (view : ∀ b, g.state.holder b = some q → g'.state.view b = g.state.view b)
    (hand : g'.hand q = g.hand q)
    (op : g'.state.current q = g.state.current q)
    (commit : (g'.own q).commit = (g.own q).commit)
    (home : g'.state.log.Home = g.state.log.Home) :
    g'.own q = g.own q := by
  ext1
  · funext b
    by_cases held : g.state.holder b = some q
    · simp [own, held, (holder b).mpr held, view b held]
    · simp [own, held, mt (holder b).mp held]
  · exact hand
  · exact op
  · exact commit
  · exact home

variable [Fintype Pid]

/-- The number of operations in progress. -/
def operations (current : Pid → Option (Finset Nat)) : Nat :=
  (Finset.univ.filter fun p => (current p).isSome).card

structure Inv (g : Ghost Pid) : Prop where
  /-- A changed block is held by the process that changed it. -/
  handHeld : ∀ p b, g.hand p = some b → g.state.holder b = some p
  /-- Operations change home blocks, a commit changes the log area. -/
  handKind : ∀ p b, g.hand p = some b →
    ((g.state.current p).isSome ∧ g.state.log.Home b) ∨
      ((∃ stage, g.commit = some (p, stage)) ∧ g.state.log.Area b)
  /-- Only logged blocks differ from the disk. -/
  synced : ∀ b, g.state.dirty b = true ∨ g.state.disk b = g.state.view b ∨
    ∃ p, g.hand p = some b
  pinned : ∀ b, g.state.dirty b = true → b ∈ g.state.log.lh.blocks
  distinct : g.state.log.lh.Distinct
  home : ∀ b ∈ g.state.log.lh.blocks, g.state.log.Home b
  room : g.state.log.lh.n ≤ LOGSIZE
  slots : g.state.log.lh.n = 0 ∨ g.state.log.lh.n + 1 ≤ g.state.log.size
  loggedHome : ∀ b v, g.state.logged b = some v → g.state.log.Home b
  loggedView : ∀ b v, g.state.logged b = some v →
    g.state.view b = v ∨ ∃ p, g.hand p = some b
  loggedDisk : ∀ b v, g.state.logged b = some v →
    g.state.dirty b = true ∨ g.state.disk b = v
  loggedSome : ∀ b, Ended g.state.finished b ∨ Running g.state.current b →
    ∃ v, g.state.logged b = some v
  outstanding : g.state.log.outstanding = operations g.state.current
  /-- A commit leaves no finished operation behind. -/
  idle : g.state.log.committing = false → g.state.log.outstanding = 0 →
    g.state.finished = []
  /-- A sleeping process has somebody to wake it up. -/
  asleep : ∀ p, g.state.asleep p = true →
    g.state.log.committing = true ∨ 0 < g.state.log.outstanding
  committing : g.state.log.committing = g.commit.isSome
  /-- No operation runs during a commit. -/
  quiet : g.commit.isSome → ∀ p, g.state.current p = none
  members : g.commit = none → ∀ b, b ∈ g.state.log.lh.blocks ↔
    Ended g.state.finished b ∨ Running g.state.current b
  header : g.commit = none → count (g.state.disk g.state.log.start) = 0
  stage : ∀ p stage, g.commit = some (p, stage) →
    stage.Holds g.state.log g.state.view g.state.disk g.state.dirty
      g.state.finished

variable {g : Ghost Pid} {p : Pid} {b : Nat}

/-! ## Counting operations -/

theorem operations_update (current : Pid → Option (Finset Nat)) (p : Pid)
    (op : Option (Finset Nat)) :
    operations (Function.update current p op) +
        (if (current p).isSome then 1 else 0) =
      operations current + if op.isSome then 1 else 0 :=
  card_update (fun op : Option (Finset Nat) => op.isSome = true) current p op

theorem operations_begin {current : Pid → Option (Finset Nat)}
    (outside : current p = none) :
    operations (Function.update current p (some ∅)) = operations current + 1 := by
  simpa [outside] using operations_update current p (some ∅)

theorem operations_end {current : Pid → Option (Finset Nat)}
    (running : (current p).isSome) :
    operations (Function.update current p none) + 1 = operations current := by
  simpa [running] using operations_update current p none

omit [Fintype Pid] in
theorem running_begin {current : Pid → Option (Finset Nat)} {x : Nat}
    (outside : current p = none) :
    Running (Function.update current p (some ∅)) x ↔ Running current x := by
  constructor
  · rintro ⟨q, ops, running, member⟩
    by_cases same : q = p
    · subst same
      simp at running
      simp [← running] at member
    · rw [Function.update_of_ne same] at running
      exact ⟨q, ops, running, member⟩
  · rintro ⟨q, ops, running, member⟩
    refine ⟨q, ops, ?_, member⟩
    rw [Function.update_of_ne, running]
    rintro rfl
    rw [outside] at running
    cases running

theorem operations_log {current : Pid → Option (Finset Nat)} {ops : Finset Nat}
    (running : (current p).isSome) :
    operations (Function.update current p (some ops)) = operations current := by
  simpa [running] using operations_update current p (some ops)

omit [Fintype Pid] in
theorem running_log {current : Pid → Option (Finset Nat)} {ops : Finset Nat}
    {x : Nat} (running : current p = some ops) :
    Running (Function.update current p (some (insert b ops))) x ↔
      x = b ∨ Running current x := by
  constructor
  · rintro ⟨q, ops', running', member⟩
    by_cases same : q = p
    · subst same
      simp only [Function.update_self, Option.some.injEq] at running'
      subst running'
      rcases Finset.mem_insert.mp member with rfl | earlier
      · exact Or.inl rfl
      · exact Or.inr ⟨q, ops, running, earlier⟩
    · rw [Function.update_of_ne same] at running'
      exact Or.inr ⟨q, ops', running', member⟩
  · rintro (rfl | ⟨q, ops', running', member⟩)
    · exact ⟨p, _, Function.update_self .., Finset.mem_insert_self ..⟩
    · by_cases same : q = p
      · subst same
        rw [running] at running'
        cases running'
        exact ⟨q, _, Function.update_self .., Finset.mem_insert_of_mem member⟩
      · exact ⟨q, ops', by rw [Function.update_of_ne same, running'], member⟩

omit [Fintype Pid] in
/-- Ending an operation moves its blocks to the finished ones. -/
theorem opened_end {current : Pid → Option (Finset Nat)} {ops : Finset Nat}
    {finished : List (Finset Nat)} {x : Nat} (running : current p = some ops) :
    Ended (ops :: finished) x ∨ Running (Function.update current p none) x ↔
      Ended finished x ∨ Running current x := by
  constructor
  · rintro (⟨ops', ended, member⟩ | ⟨q, ops', running', member⟩)
    · rcases List.mem_cons.mp ended with rfl | earlier
      · exact Or.inr ⟨p, ops', running, member⟩
      · exact Or.inl ⟨ops', earlier, member⟩
    · by_cases same : q = p
      · simp [same] at running'
      · rw [Function.update_of_ne same] at running'
        exact Or.inr ⟨q, ops', running', member⟩
  · rintro (⟨ops', ended, member⟩ | ⟨q, ops', running', member⟩)
    · exact Or.inl ⟨ops', List.mem_cons_of_mem _ ended, member⟩
    · by_cases same : q = p
      · subst same
        rw [running] at running'
        cases running'
        exact Or.inl ⟨ops, List.mem_cons_self .., member⟩
      · exact Or.inr ⟨q, ops', by rw [Function.update_of_ne same, running'], member⟩

namespace Inv

/-! ## Who may run at the same time -/

omit [DecidableEq Pid] in
theorem noCommit (inv : Inv g) (running : (g.state.current p).isSome) :
    g.commit = none := by
  cases commit : g.commit with
  | none => rfl
  | some committer =>
      have quiet := inv.quiet (by simp [commit]) p
      simp [quiet] at running

omit [DecidableEq Pid] in
theorem notCommitting (inv : Inv g) (running : (g.state.current p).isSome) :
    g.state.log.committing = false := by
  rw [inv.committing, inv.noCommit running]
  rfl

omit [DecidableEq Pid] in
/-- During a commit only the committing process changes blocks. -/
theorem handOfCommit (inv : Inv g) {q : Pid} {stage : Stage}
    (commit : g.commit = some (p, stage)) (hand : g.hand q = some b) :
    q = p ∧ g.state.log.Area b := by
  rcases inv.handKind q b hand with ⟨running, _⟩ | ⟨⟨_, commit'⟩, area⟩
  · rw [inv.noCommit running] at commit
    cases commit
  · rw [commit] at commit'
    cases commit'
    exact ⟨rfl, area⟩

omit [DecidableEq Pid] in
theorem notDirty (inv : Inv g) (outside : ¬ g.state.log.Home b) :
    g.state.dirty b = false := by
  rw [Bool.eq_false_iff]
  exact fun dirty => outside (inv.home b (inv.pinned b dirty))

omit [DecidableEq Pid] in
theorem outstandingPos (inv : Inv g) (running : (g.state.current p).isSome) :
    0 < g.state.log.outstanding := by
  rw [inv.outstanding, operations, Finset.card_pos]
  exact ⟨p, by simpa using running⟩

omit [DecidableEq Pid] in
theorem noneRunning (inv : Inv g) (zero : g.state.log.outstanding = 0) :
    g.state.current p = none := by
  by_contra running
  have positive := inv.outstandingPos (Option.ne_none_iff_isSome.mp running)
  omega

/-! ## Buffers -/

omit [DecidableEq Pid] in
theorem bread (inv : Inv g) (free : g.state.holder b = none) :
    Inv
      { g with
        state :=
          { g.state with
            holder := Function.update g.state.holder b (some p) } } :=
  { inv with
    handHeld := by
      intro q x hand
      have held := inv.handHeld q x hand
      have other : x ≠ b := by
        rintro rfl
        rw [free] at held
        cases held
      simpa [other] using held }

omit [DecidableEq Pid] in
theorem brelse (inv : Inv g) (held : g.state.holder b = some p)
    (hand : g.hand p ≠ some b) :
    Inv
      { g with
        state :=
          { g.state with
            holder := Function.update g.state.holder b none } } :=
  { inv with
    handHeld := by
      intro q x changed
      have owner := inv.handHeld q x changed
      have other : x ≠ b := by
        rintro rfl
        rw [held] at owner
        cases owner
        exact hand changed
      simpa [other] using owner }

/-- The holder changes the block, in an operation or for a commit. -/
theorem store (inv : Inv g) {data : Block}
    (held : g.state.holder b = some p) (empty : g.hand p = none)
    (kind : ((g.state.current p).isSome ∧ g.state.log.Home b) ∨
      ((∃ stage, g.commit = some (p, stage)) ∧ g.state.log.Area b)) :
    Inv
      { g with
        state :=
          { g.state with view := Function.update g.state.view b data }
        hand := Function.update g.hand p (some b) } := by
  have keeps : ∀ x, (∃ q, g.hand q = some x) →
      ∃ q, Function.update g.hand p (some b) q = some x := by
    rintro x ⟨q, hand⟩
    refine ⟨q, ?_⟩
    rw [Function.update_of_ne, hand]
    rintro rfl
    rw [empty] at hand
    cases hand
  have mine : ∃ q, Function.update g.hand p (some b) q = some b :=
    ⟨p, Function.update_self ..⟩
  have changed : ∀ q x, Function.update g.hand p (some b) q = some x →
      (q = p ∧ x = b) ∨ g.hand q = some x := by
    intro q x hand
    by_cases same : q = p
    · subst same
      rw [Function.update_self] at hand
      exact Or.inl ⟨rfl, (Option.some.inj hand).symm⟩
    · rw [Function.update_of_ne same] at hand
      exact Or.inr hand
  exact
    { inv with
      handHeld := by
        intro q x hand
        rcases changed q x hand with ⟨rfl, rfl⟩ | hand
        · exact held
        · exact inv.handHeld q x hand
      handKind := by
        intro q x hand
        rcases changed q x hand with ⟨rfl, rfl⟩ | hand
        · exact kind
        · exact inv.handKind q x hand
      synced := by
        intro x
        by_cases same : x = b
        · subst same
          exact Or.inr (Or.inr mine)
        · simp only [Function.update_of_ne same]
          exact (inv.synced x).imp_right (Or.imp_right (keeps x))
      loggedView := by
        intro x v logged
        by_cases same : x = b
        · subst same
          exact Or.inr mine
        · simp only [Function.update_of_ne same]
          exact (inv.loggedView x v logged).imp_right (keeps x)
      stage := by
        intro q stage commit
        rcases kind with ⟨running, _⟩ | ⟨_, area⟩
        · rw [inv.noCommit running] at commit
          cases commit
        · apply (inv.stage q stage commit).view
          intro x logged
          apply Function.update_of_ne
          rintro rfl
          exact (inv.home x logged).2 area }

omit [DecidableEq Pid] in
/-- A commit writes a block, which takes it from one stage to the next. -/
theorem bwrite (inv : Inv g) {stage stage' : Stage}
    (commit : g.commit = some (p, stage))
    (hand : g.hand p = none ∨ g.hand p = some b)
    (later : stage'.Holds g.state.log g.state.view
      (Function.update g.state.disk b (g.state.view b))
      (Function.update g.state.dirty b false) g.state.finished) :
    Inv
      { state :=
          { g.state with
            disk := Function.update g.state.disk b (g.state.view b)
            dirty := Function.update g.state.dirty b false
            written := b :: g.state.written }
        hand := fun _ => none
        commit := some (p, stage') } := by
  have only : ∀ q x, g.hand q = some x → x = b ∧ g.state.log.Area x := by
    intro q x changed
    rcases inv.handOfCommit commit changed with ⟨rfl, area⟩
    rcases hand with empty | same
    · rw [empty] at changed
      cases changed
    · rw [same] at changed
      cases changed
      exact ⟨rfl, area⟩
  have viewed : ∀ x v, g.state.logged x = some v → g.state.view x = v := by
    intro x v logged
    rcases inv.loggedView x v logged with same | ⟨q, changed⟩
    · exact same
    · exact absurd (only q x changed).2 (inv.loggedHome x v logged).2
  exact
    { inv with
      handHeld := nofun
      handKind := nofun
      synced := by
        intro x
        by_cases same : x = b
        · subst same
          simp
        · simp only [Function.update_of_ne same]
          refine (inv.synced x).imp_right (Or.imp_right ?_)
          rintro ⟨q, changed⟩
          exact absurd (only q x changed).1 same
      pinned := by
        intro x dirty
        by_cases same : x = b
        · simp [same] at dirty
        · simp only [Function.update_of_ne same] at dirty
          exact inv.pinned x dirty
      loggedView := fun x v logged => Or.inl (viewed x v logged)
      loggedDisk := by
        intro x v logged
        by_cases same : x = b
        · subst same
          simpa using viewed x v logged
        · simp only [Function.update_of_ne same]
          exact inv.loggedDisk x v logged
      committing := by simpa [commit] using inv.committing
      quiet := fun _ => inv.quiet (by simp [commit])
      members := nofun
      header := nofun
      stage := by
        rintro q _ ⟨⟩
        exact later }

/-! ## Operations -/

theorem sleep (inv : Inv g)
    (wait : (g.state.log.committing || g.state.log.full) = true) :
    Inv
      { g with
        state :=
          { g.state with asleep := Function.update g.state.asleep p true } } :=
  { inv with
    asleep := by
      intro q sleeping
      by_contra nobody
      simp only [not_or, Bool.not_eq_true, Nat.not_lt, Nat.le_zero] at nobody
      rcases nobody with ⟨notCommitting, none⟩
      have blocks := inv.members (by simpa [notCommitting] using inv.committing.symm)
      have empty : g.state.log.lh.n = 0 := by
        by_contra some
        have logged := block_mem_blocks (Nat.pos_of_ne_zero some)
        rcases (blocks _).mp logged with ⟨ops, ended, _⟩ | ⟨q, ops, running, _⟩
        · rw [inv.idle notCommitting none] at ended
          cases ended
        · rw [inv.noneRunning none] at running
          cases running
      simp [notCommitting, none, empty, Log.full, LOGSIZE, MAXOPBLOCKS] at wait }

theorem beginOp (inv : Inv g) (outside : g.state.current p = none)
    (admitted : g.state.log.committing = false) :
    Inv
      { g with
        state :=
          { g.state with
            log := { g.state.log with
              outstanding := g.state.log.outstanding + 1 }
            current := Function.update g.state.current p (some ∅) } } := by
  have noCommit : g.commit = none := by
    simpa [admitted] using inv.committing.symm
  exact
    { inv with
      handKind := by
        intro q x hand
        rcases inv.handKind q x hand with ⟨running, home⟩ | ⟨⟨_, commit⟩, _⟩
        · refine Or.inl ⟨?_, home⟩
          by_cases same : q = p <;> simp [same, running]
        · simp [noCommit] at commit
      loggedSome := by
        intro x opened
        rw [running_begin outside] at opened
        exact inv.loggedSome x opened
      outstanding := by
        rw [operations_begin outside, ← inv.outstanding]
      idle := by
        intro _ none
        cases none
      asleep := fun _ _ => Or.inr (Nat.succ_pos _)
      quiet := by simp [noCommit]
      members := by
        intro _ x
        rw [running_begin outside]
        exact inv.members noCommit x
      stage := by simp [noCommit] }

/-- The critical section of `log_write`, when there is room for the block. -/
theorem absorb (inv : Inv g) {ops : Finset Nat}
    (running : g.state.current p = some ops) (hand : g.hand p = some b)
    (home : g.state.log.Home b) (space : g.state.log.tooBig = false) :
    Inv
      { g with
        state := g.state.absorb p b
        hand := Function.update g.hand p none } := by
  have noCommit := inv.noCommit (p := p) (by simp [running])
  have opened : (g.state.current p).map (insert b) = some (insert b ops) := by
    rw [running]
    rfl
  have keeps : ∀ x, x ≠ b → (∃ q, g.hand q = some x) →
      ∃ q, Function.update g.hand p none q = some x := by
    rintro x other ⟨q, changed⟩
    refine ⟨q, ?_⟩
    rw [Function.update_of_ne, changed]
    rintro rfl
    rw [hand] at changed
    cases changed
    exact other rfl
  have changed : ∀ q x, Function.update g.hand p none q = some x →
      q ≠ p ∧ g.hand q = some x := by
    intro q x hand
    by_cases same : q = p
    · simp [same] at hand
    · rw [Function.update_of_ne same] at hand
      exact ⟨same, hand⟩
  simp only [Log.tooBig, Bool.or_eq_false_iff, decide_eq_false_iff_not,
    Nat.not_le] at space
  have grown : (g.state.log.lh.absorb b).n ≤ g.state.log.lh.n + 1 := absorb_n_le
  rw [State.absorb, Ops.absorb, opened]
  exact
    { inv with
      handHeld := fun q x hand => inv.handHeld q x (changed q x hand).2
      handKind := by
        intro q x hand
        rcases changed q x hand with ⟨other, hand⟩
        simp only [Function.update_of_ne other]
        exact inv.handKind q x hand
      synced := by
        intro x
        by_cases same : x = b
        · subst same
          exact Or.inl (Function.update_self ..)
        · simp only [Function.update_of_ne same]
          exact (inv.synced x).imp_right (Or.imp_right (keeps x same))
      pinned := by
        intro x dirty
        refine mem_blocks_absorb.mpr ?_
        by_cases same : x = b
        · exact Or.inl same
        · simp only [Function.update_of_ne same] at dirty
          exact Or.inr (inv.pinned x dirty)
      distinct := inv.distinct.absorb
      home := by
        intro x logged
        rcases mem_blocks_absorb.mp logged with rfl | earlier
        · exact home
        · exact inv.home x earlier
      room := by
        simp only
        omega
      slots := by
        simp only
        omega
      loggedHome := by
        intro x v logged
        by_cases same : x = b
        · subst same
          exact home
        · simp only [Function.update_of_ne same] at logged
          exact inv.loggedHome x v logged
      loggedView := by
        intro x v logged
        by_cases same : x = b
        · subst same
          simp only [Function.update_self, Option.some.injEq] at logged
          exact Or.inl logged
        · simp only [Function.update_of_ne same] at logged
          exact (inv.loggedView x v logged).imp_right (keeps x same)
      loggedDisk := by
        intro x v logged
        by_cases same : x = b
        · subst same
          exact Or.inl (Function.update_self ..)
        · simp only [Function.update_of_ne same] at logged ⊢
          exact inv.loggedDisk x v logged
      loggedSome := by
        intro x opened
        by_cases same : x = b
        · subst same
          exact ⟨_, Function.update_self ..⟩
        · simp only [Function.update_of_ne same]
          rw [running_log running] at opened
          apply inv.loggedSome x
          simpa [same] using opened
      outstanding := by
        rw [operations_log (by simp [running])]
        exact inv.outstanding
      quiet := by simp [noCommit]
      members := by
        intro _ x
        rw [running_log running]
        refine mem_blocks_absorb.trans ?_
        rw [inv.members noCommit x]
        tauto
      stage := by simp [noCommit] }

/-- The first critical section of `end_op`; the last operation starts a commit. -/
theorem endOp (inv : Inv g) {ops : Finset Nat}
    (running : g.state.current p = some ops) (empty : g.hand p = none)
    (asleep : Pid → Bool)
    (woken : ∀ q, asleep q = true → g.state.log.outstanding - 1 = 0) :
    Inv
      { g with
        state :=
          { g.state with
            log := { g.state.log with
              outstanding := g.state.log.outstanding - 1
              committing := decide (g.state.log.outstanding - 1 = 0) }
            asleep := asleep
            current := Function.update g.state.current p none
            finished := ops :: g.state.finished }
        commit :=
          if g.state.log.outstanding - 1 = 0 then some (p, .copying 0)
          else none } := by
  have here : (g.state.current p).isSome := by simp [running]
  have noCommit := inv.noCommit here
  have counted := operations_end here
  rw [← inv.outstanding] at counted
  have alone : g.state.log.outstanding - 1 = 0 →
      ∀ q, Function.update g.state.current p none q = none := by
    intro last q
    by_contra other
    have positive : 0 < operations (Function.update g.state.current p none) :=
      Finset.card_pos.mpr ⟨q, by simpa [Option.isSome_iff_ne_none] using other⟩
    omega
  have members : ∀ x, x ∈ g.state.log.lh.blocks ↔
      Ended (ops :: g.state.finished) x ∨
        Running (Function.update g.state.current p none) x := by
    intro x
    rw [opened_end running]
    exact inv.members noCommit x
  exact
    { inv with
      handKind := by
        intro q x hand
        have other : q ≠ p := by
          rintro rfl
          rw [empty] at hand
          cases hand
        rcases inv.handKind q x hand with ⟨running', home⟩ | ⟨⟨_, commit⟩, _⟩
        · exact Or.inl ⟨by simpa [other] using running', home⟩
        · rw [noCommit] at commit
          cases commit
      loggedSome := by
        intro x opened
        rw [opened_end running] at opened
        exact inv.loggedSome x opened
      outstanding := by
        simp only
        omega
      idle := by
        intro notCommitting zero
        have last : g.state.log.outstanding - 1 = 0 := zero
        simp [last] at notCommitting
      asleep := fun q sleeping => Or.inl (by simpa using woken q sleeping)
      committing := by
        by_cases last : g.state.log.outstanding - 1 = 0 <;> simp [last]
      quiet := by
        intro commit
        by_cases last : g.state.log.outstanding - 1 = 0
        · exact alone last
        · simp [last] at commit
      members := fun _ => members
      header := fun _ => inv.header noCommit
      stage := by
        intro q stage commit
        by_cases last : g.state.log.outstanding - 1 = 0
        · simp only [last, if_true, Option.some.injEq, Prod.mk.injEq] at commit
          rcases commit with ⟨rfl, rfl⟩
          refine ⟨Nat.zero_le _, inv.header noCommit, fun x => ?_, nofun⟩
          refine (members x).trans ⟨?_, Or.inl⟩
          rintro (ended | ⟨q, ops', running', _⟩)
          · exact ended
          · rw [alone last q] at running'
            cases running'
        · simp [last] at commit }

/-! ## Commits -/

omit [DecidableEq Pid] in
/-- A commit without logged blocks has nothing to do. -/
theorem skip (inv : Inv g) {k : Nat}
    (commit : g.commit = some (p, .copying k)) (none : g.state.log.lh.n = 0) :
    Inv { g with commit := some (p, .erased) } :=
  { inv with
    handKind := by
      intro q x hand
      rcases inv.handOfCommit commit hand with ⟨rfl, area⟩
      exact Or.inr ⟨⟨_, rfl⟩, area⟩
    committing := by simpa [commit] using inv.committing
    quiet := fun _ => inv.quiet (by simp [commit])
    members := nofun
    header := nofun
    stage := by
      rintro q _ ⟨⟩
      refine ⟨none, fun x => ?_, (inv.stage p _ commit).2.1⟩
      rw [Bool.eq_false_iff]
      intro dirty
      rcases mem_blocks.mp (inv.pinned x dirty) with ⟨i, below, _⟩
      omega }

omit [DecidableEq Pid] in
/-- `log.lh.n = 0;` once every block is installed. -/
theorem clearHeader (inv : Inv g)
    (commit : g.commit = some (p, .installing g.state.log.lh.n)) :
    Inv
      { g with
        state :=
          { g.state with
            log := { g.state.log with lh := { g.state.log.lh with n := 0 } } }
        commit := some (p, .cleared) } := by
  rcases inv.stage p _ commit with ⟨nonempty, _, header, _, installed⟩
  have clean : ∀ x, g.state.dirty x = false := by
    intro x
    rw [Bool.eq_false_iff]
    intro dirty
    rcases mem_blocks.mp (inv.pinned x dirty) with ⟨i, below, rfl⟩
    rw [installed i below] at dirty
    cases dirty
  exact
    { inv with
      handKind := by
        intro q x hand
        rcases inv.handOfCommit commit hand with ⟨rfl, area⟩
        exact Or.inr ⟨⟨_, rfl⟩, area⟩
      pinned := by
        intro x dirty
        simp [clean] at dirty
      distinct := nofun
      home := by
        intro x logged
        rcases mem_blocks.mp logged with ⟨i, below, _⟩
        cases below
      room := Nat.zero_le _
      slots := Or.inl rfl
      committing := by simpa [commit] using inv.committing
      quiet := fun _ => inv.quiet (by simp [commit])
      members := nofun
      header := nofun
      stage := by
        rintro q _ ⟨⟩
        exact ⟨nonempty, rfl, clean, header⟩ }

omit [DecidableEq Pid] in
/-- The second critical section of `end_op`. -/
theorem endCommit (inv : Inv g) (commit : g.commit = some (p, .erased))
    (empty : g.hand p = none) :
    Inv
      { g with
        state := { g.state with toOps := g.state.toOps.endCommit }
        commit := none } := by
  rcases inv.stage p _ commit with ⟨zero, _, header⟩
  have quiet := inv.quiet (by simp [commit])
  exact
    { inv with
      handKind := by
        intro q x hand
        rcases inv.handOfCommit commit hand with ⟨rfl, _⟩
        rw [empty] at hand
        cases hand
      loggedSome := by
        rintro x (⟨_, ended, _⟩ | ⟨q, _, running, _⟩)
        · cases ended
        · have resting : g.state.current q = some _ := running
          rw [quiet q] at resting
          cases resting
      idle := fun _ _ => rfl
      asleep := nofun
      committing := rfl
      quiet := nofun
      members := by
        intro _ x
        constructor
        · intro logged
          rcases mem_blocks.mp logged with ⟨i, below, _⟩
          have below' : i < g.state.log.lh.n := below
          omega
        · rintro (⟨_, ended, _⟩ | ⟨q, _, running, _⟩)
          · cases ended
          · have resting : g.state.current q = some _ := running
            rw [quiet q] at resting
            cases resting
      header := fun _ => header
      stage := nofun }

end Inv

end PiKernel.Logging
