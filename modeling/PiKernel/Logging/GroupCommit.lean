import PiKernel.Logging.Rules

/-!
# Group commit

Operations of all processes are collected in one transaction, which the last
of them commits.  `GroupCommit` lists what this means in any state between two
actions; it holds in every run in which the space test of `log_write` is still
true when the block is entered.  The test is made before `log.lock` is taken,
and two operations that pass it together break the guarantee.
-/

namespace PiKernel.Logging

open PiKernel.Conc
open PiKernel.Conc.Prog (perform)
open LogHeader

variable {Pid : Type} [DecidableEq Pid] [Fintype Pid]

/-! ## The functions of the log -/

section Code

variable {quota : Finset Nat → Bool} {p : Pid} {log : Log} {mine : Own}

/-- A process in the middle of its commit. -/
structure Own.At (log : Log) (stage : Stage) (mine : Own) : Prop where
  commit : mine.commit = some (log, stage)
  hand : mine.hand = none
  op : mine.op = none

theorem Log.Loggable.slot_area (ok : log.Loggable) {i : Nat}
    (below : i < log.lh.n) : log.Area (log.start + i + 1) := by
  have slots := ok.slots
  exact ⟨by omega, by omega⟩

theorem Log.Loggable.start_area (ok : log.Loggable) : log.Area log.start := by
  have slots := ok.slots
  exact ⟨le_refl _, by omega⟩

/-- Copying one more slot. -/
theorem Stage.Holds.copy {view disk : Nat → Block} {dirty : Nat → Bool}
    {finished : List (Finset Nat)} {k : Nat}
    (holds : (copying k).Holds log view disk dirty finished)
    (below : k < log.lh.n) :
    (copying (k + 1)).Holds log view
      (Function.update disk (log.start + k + 1) (view (log.lh.block k)))
      (Function.update dirty (log.start + k + 1) false) finished := by
  rcases holds with ⟨_, zero, members, slots⟩
  refine ⟨below, ?_, members, fun i earlier => ?_⟩
  · rw [Function.update_of_ne (by omega)]
    exact zero
  · by_cases last : i = k
    · subst last
      rw [Function.update_self]
    · rw [Function.update_of_ne (by omega)]
      exact slots i (by omega)

/-- Installing one more block. -/
theorem Stage.Holds.install {view disk : Nat → Block} {dirty : Nat → Bool}
    {finished : List (Finset Nat)} {k : Nat} (ok : log.Loggable)
    (holds : (installing k).Holds log view disk dirty finished)
    (below : k < log.lh.n) :
    (installing (k + 1)).Holds log view
      (Function.update disk (log.lh.block k) (view (log.lh.block k)))
      (Function.update dirty (log.lh.block k) false) finished := by
  rcases holds with ⟨nonempty, members, header, slots, clean⟩
  refine ⟨nonempty, members, ?_, fun i slot => ?_, fun i earlier => ?_⟩
  · rw [Function.update_of_ne (ok.start_ne below)]
    exact header
  · rw [Function.update_of_ne (ok.slot_ne below slot)]
    exact slots i slot
  · by_cases last : i = k
    · subst last
      rw [Function.update_self]
    · have other : log.lh.block i ≠ log.lh.block k := fun same =>
        last (ok.distinct i k (by omega) below same)
      rw [Function.update_of_ne other]
      exact clean i (by omega)

theorem mem_decode_encode {lh : LogHeader} {data : Block} {b : Nat}
    (room : lh.n ≤ LOGSIZE) (small : ∀ i, i < lh.n → lh.block i < 2 ^ 32) :
    b ∈ (decode (lh.encode data)).blocks ↔ b ∈ lh.blocks := by
  simp only [mem_blocks, decode_encode_n room]
  constructor
  · rintro ⟨i, below, rfl⟩
    exact ⟨i, below, (decode_encode_block room below (small i below)).symm⟩
  · rintro ⟨i, below, rfl⟩
    exact ⟨i, below, decode_encode_block room below (small i below)⟩

/-- Writing the header is the commit point. -/
theorem Stage.Holds.header {view disk : Nat → Block} {dirty : Nat → Bool}
    {finished : List (Finset Nat)} {data : Block} (ok : log.Loggable)
    (holds : (copying log.lh.n).Holds log view disk dirty finished) :
    (installing 0).Holds log view
      (Function.update disk log.start (log.lh.encode data))
      (Function.update dirty log.start false) finished := by
  rcases holds with ⟨_, _, members, slots⟩
  have size := ok.slots
  refine ⟨by omega, members, fun b => ?_, fun i slot => ?_, nofun⟩
  · rw [Function.update_self, mem_decode_encode ok.room ok.small]
    exact members b
  · rw [Function.update_of_ne (by omega)]
    exact slots i slot

theorem Stage.Holds.erase {view disk : Nat → Block} {dirty : Nat → Bool}
    {finished : List (Finset Nat)} {data : Block}
    (holds : cleared.Holds log view disk dirty finished) :
    erased.Holds log view
      (Function.update disk log.start (log.lh.encode data))
      (Function.update dirty log.start false) finished := by
  rcases holds with ⟨_, zero, clean, _⟩
  refine ⟨zero, fun b => ?_, ?_⟩
  · by_cases same : b = log.start
    · simp [same]
    · simp [same, clean b]
  · rw [Function.update_self, count_encode (by omega), zero]

/-- `write_head` takes the commit over its commit point, or erases the header. -/
theorem writeHead_safe {stage stage' : Stage}
    (start : mine.At log stage) (area : log.Area log.start)
    (later : ∀ view disk dirty finished data,
      stage.Holds log view disk dirty finished →
        stage'.Holds log view
          (Function.update disk log.start (log.lh.encode data))
          (Function.update dirty log.start false) finished) :
    (protocol quota : Protocol (_ : System Act Pid (State Pid)) _ _).Safe p
      writeHead mine fun _ mine' => mine'.At log stage' := by
  unfold writeHead
  apply Protocol.Safe.bind
  apply readLog_commit_safe start.commit
  intro _
  apply Protocol.Safe.bind
  apply bread_safe
  intro d
  apply Protocol.Safe.bind
  apply load_safe (Function.update_self ..)
  apply Protocol.Safe.bind
  refine store_area_safe (Function.update_self ..) start.hand start.commit area ?_
  apply Protocol.Safe.bind
  refine bwrite_safe stage' (Function.update_self ..) (Or.inr rfl) start.commit ?_ ?_
  · intro view disk dirty finished known holds
    rw [known log.start _ (Function.update_self ..)]
    exact later view disk dirty finished d holds
  · apply brelse_safe (Function.update_self ..) (by simp)
    exact ⟨rfl, rfl, start.op⟩

/-- `write_log` copies every logged block to its slot. -/
theorem writeLog_safe (start : mine.At log (.copying 0)) (ok : log.Loggable) :
    (protocol quota : Protocol (_ : System Act Pid (State Pid)) _ _).Safe p
      writeLog mine fun _ mine' => mine'.At log (.copying log.lh.n) := by
  unfold writeLog
  apply Protocol.Safe.bind
  apply readLog_commit_safe start.commit
  intro _
  apply Protocol.Safe.forM
    (fun before mine' => mine'.At log (.copying before.length))
  · intro before item after mine' split here
    rcases range_split split with ⟨rfl, below⟩
    rw [List.length_append, List.length_singleton]
    have apart := ok.slot_ne below below
    apply Protocol.Safe.bind
    apply readLog_commit_safe here.commit
    intro _
    apply Protocol.Safe.bind
    apply bread_safe
    intro old
    apply Protocol.Safe.bind
    apply bread_safe
    intro data
    apply Protocol.Safe.bind
    apply load_safe (Function.update_self ..)
    apply Protocol.Safe.bind
    refine store_area_safe (d := old) (by simp [apart]) here.hand here.commit
      (ok.slot_area below) ?_
    apply Protocol.Safe.bind
    refine bwrite_safe (.copying (before.length + 1)) (Function.update_self ..)
      (Or.inr rfl) here.commit ?_ ?_
    · intro view disk dirty finished known holds
      have slot := known (log.start + before.length + 1) data
        (Function.update_self ..)
      have home := known (log.lh.block before.length) data
        (by simp [apart.symm])
      rw [slot, ← home]
      exact holds.copy below
    · apply Protocol.Safe.bind
      apply brelse_safe (d := data) (by simp [apart.symm]) (by simp)
      apply brelse_safe (d := data) (by simp [apart]) (by simp)
      exact ⟨rfl, rfl, here.op⟩
  · intro mine' done
    rw [List.length_range] at done
    exact done
  · exact start

/-- `install_trans` in a commit finds the cached blocks as new as the slots. -/
theorem installTrans_safe (start : mine.At log (.installing 0))
    (ok : log.Loggable) :
    (protocol quota : Protocol (_ : System Act Pid (State Pid)) _ _).Safe p
      installTrans mine fun _ mine' => mine'.At log (.installing log.lh.n) := by
  unfold installTrans
  apply Protocol.Safe.bind
  apply readLog_commit_safe start.commit
  intro _
  apply Protocol.Safe.forM
    (fun before mine' => mine'.At log (.installing before.length))
  · intro before item after mine' split here
    rcases range_split split with ⟨rfl, below⟩
    rw [List.length_append, List.length_singleton]
    have apart := ok.slot_ne below below
    apply Protocol.Safe.bind
    apply readLog_commit_safe here.commit
    intro _
    apply Protocol.Safe.bind
    apply bread_safe
    intro data
    apply Protocol.Safe.bind
    apply bread_safe
    intro old
    apply Protocol.Safe.bind
    apply load_safe (d := data) (by simp [apart])
    apply Protocol.Safe.bind
    refine store_home_safe (by simp [apart]) (Function.update_self ..) here.hand
      here.commit below ?_
    apply Protocol.Safe.bind
    refine bwrite_safe (.installing (before.length + 1)) (Function.update_self ..)
      (Or.inl here.hand) here.commit ?_ ?_
    · intro view disk dirty finished _ holds
      exact holds.install ok below
    · apply Protocol.Safe.bind
      apply brelse_safe (d := data) (by simp [apart]) (by simp)
      apply brelse_safe (d := old) (by simp [apart.symm]) (by simp)
      exact ⟨rfl, rfl, here.op⟩
  · intro mine' done
    rw [List.length_range] at done
    exact done
  · exact start

/-- `commit` ends with the header erased. -/
theorem commit_safe (start : mine.At log (.copying 0)) :
    (protocol quota : Protocol (_ : System Act Pid (State Pid)) _ _).Safe p
      commit mine fun _ mine' => ∃ log, mine'.At log .erased := by
  unfold commit
  apply Protocol.Safe.bind
  by_cases empty : log.lh.n = 0
  · apply readLog_skip_safe start.commit empty
    simp only [empty, Nat.lt_irrefl, if_false]
    exact ⟨log, rfl, start.hand, start.op⟩
  · have some : 0 < log.lh.n := Nat.pos_of_ne_zero empty
    apply readLog_commit_safe start.commit
    intro loggable
    have ok := loggable some
    simp only [gt_iff_lt, some, if_true]
    apply Protocol.Safe.seq (writeLog_safe start ok)
    intro _ _ copied
    apply Protocol.Safe.seq
    · exact writeHead_safe copied ok.start_area
        fun _ _ _ _ _ holds => holds.header ok
    intro _ _ written
    apply Protocol.Safe.seq (installTrans_safe written ok)
    intro _ _ installed
    apply Protocol.Safe.bind
    apply clearHeader_safe installed.commit
    apply Protocol.Safe.mono
    · exact writeHead_safe ⟨rfl, installed.hand, installed.op⟩ ok.start_area
        fun _ _ _ _ _ holds => holds.erase
    · exact fun _ _ erased => ⟨_, erased⟩

theorem endOp_program_safe {ops : Finset Nat} (op : mine.op = some ops)
    (hand : mine.hand = none) :
    (protocol quota : Protocol (_ : System Act Pid (State Pid)) _ _).Safe p
      endOp mine fun _ mine' =>
        mine'.hand = none ∧ mine'.commit = none ∧ mine'.op = none := by
  unfold endOp
  apply Protocol.Safe.bind
  apply endOp_safe op hand
  · intro log
    simp only [if_true]
    refine Protocol.Safe.seq (commit_safe ⟨rfl, hand, rfl⟩) ?_
    rintro _ mine' ⟨log', erased⟩
    apply endCommit_safe erased.commit erased.hand
    exact ⟨erased.hand, rfl, erased.op⟩
  · exact ⟨hand, rfl, rfl⟩

theorem logWrite_safe {d : Block} {ops : Finset Nat} {b : Nat}
    (held : mine.held b = some d) (op : mine.op = some ops)
    (hand : mine.hand = some b) (home : mine.home b) :
    (protocol quota : Protocol (_ : System Act Pid (State Pid)) _ _).Safe p
      (logWrite b) mine fun _ mine' =>
        mine' = { mine with op := some (insert b ops), hand := none } := by
  unfold logWrite
  apply Protocol.Safe.bind
  apply readLog_safe
  intro log
  split
  · rfl
  · exact absorb_safe held op hand home rfl

/-- Every call that a process may make follows the protocol. -/
theorem tasks_safe :
    (protocol quota : Protocol (_ : System Act Pid (State Pid)) _ _).TasksSafe := by
  apply Protocol.TasksSafe.ofSafe
  rintro g _ p _ ⟨rfl, inv⟩ ⟨hand, noCommit⟩ ⟨call, permitted, rfl⟩
  have holding : ∀ b, g.state.holder b = some p →
      (g.own p).held b = some (g.state.view b) := by
    intro b holder
    simp [Ghost.own, holder]
  cases call with
  | beginOp =>
      have outside : g.state.current p = none := by
        simpa [Call.permitted] using permitted
      exact beginOp_safe outside ⟨hand, noCommit⟩
  | endOp =>
      have running : (g.state.current p).isSome := by
        simpa [Call.permitted] using permitted
      rcases Option.isSome_iff_exists.mp running with ⟨ops, op⟩
      apply (endOp_program_safe op hand).mono
      exact fun _ _ ended => ⟨ended.1, ended.2.1⟩
  | bread b => exact bread_safe fun _ => ⟨hand, noCommit⟩
  | load b =>
      have holder : g.state.holder b = some p := by
        simpa [Call.permitted] using permitted
      apply Protocol.Safe.bind
      exact load_safe (holding b holder) ⟨hand, noCommit⟩
  | write b data =>
      simp only [Call.permitted, Bool.and_eq_true, decide_eq_true_eq] at permitted
      rcases permitted with ⟨⟨holder, home⟩, some⟩
      rcases (Option.any_eq_true _ _).mp some with ⟨ops, op, _⟩
      apply Protocol.Safe.bind
      apply store_op_safe (holding b holder) hand op home
      apply (logWrite_safe (Function.update_self ..) op rfl home).mono
      rintro _ _ rfl
      exact ⟨rfl, noCommit⟩
  | brelse b =>
      have holder : g.state.holder b = some p := by
        simpa [Call.permitted] using permitted
      have other : (g.own p).hand ≠ some b := fun same => by
        have empty : (g.own p).hand = none := hand
        rw [empty] at same
        cases same
      exact brelse_safe (holding b holder) other ⟨hand, noCommit⟩

end Code

/-! ## What a group commit guarantees -/

/-- The actions that only `commit` and the end of `end_op` take. -/
def Act.ofCommit : {β : Type} → Act β → Bool
  | _, .bwrite _ => true
  | _, .clearHeader => true
  | _, .endCommit => true
  | _, _ => false

/-- The guarantees of the log between any two actions. -/
structure GroupCommit (quota : Finset Nat → Bool)
    (config : Config Act Pid (State Pid)) : Prop where
  /-- A commit runs while no operation is outstanding. -/
  alone : config.shared.log.committing = true →
    config.shared.log.outstanding = 0 ∧ ∀ p, config.shared.current p = none
  commits : ∀ p {β : Type} (action : Act β) next,
    config.prog p = .act action next → action.ofCommit = true →
      config.shared.log.committing = true
  /-- No `begin_op` returns and nothing is logged until the log is empty. -/
  closed : config.shared.log.committing = true →
    ∀ config', (processes quota).Step config config' →
      config'.shared.current = config.shared.current ∧
        config'.shared.logged = config.shared.logged ∧
        (config'.shared.log.committing = true ∨ config'.shared.log.lh.n = 0)
  /-- `log_write` runs in an operation. -/
  logs : ∀ p b next, config.prog p = .act (.absorb b) next →
    config.shared.log.committing = false ∧ 0 < config.shared.log.outstanding ∧
      (config.shared.current p).isSome
  noPanic : ∀ p, config.prog p ≠ .panic "end_op: log.committing\n"
  /-- The header on disk is empty or lists the blocks of whole operations. -/
  whole : count (config.shared.disk config.shared.log.start) = 0 ∨
    config.shared.log.committing = true ∧
      ∀ b, b ∈ (decode (config.shared.disk config.shared.log.start)).blocks ↔
        Ended config.shared.finished b
  /-- When `end_op` returns from the commit everything is at its home. -/
  installed : ∀ p next, config.prog p = .act .endCommit next →
    ∀ b, Ended config.shared.finished b →
      ∃ v, config.shared.logged b = some v ∧ config.shared.disk b = v
  /-- Nobody sleeps with nobody left to wake it up. -/
  noLostWakeup : config.shared.log.committing = false →
    config.shared.log.outstanding = 0 →
      ∀ p, config.shared.asleep p = false

variable {quota : Finset Nat → Bool}

omit [DecidableEq Pid] in
theorem Inv.whole {g : Ghost Pid} (inv : Inv g) :
    count (g.state.disk g.state.log.start) = 0 ∨
      g.state.log.committing = true ∧
        ∀ b, b ∈ (decode (g.state.disk g.state.log.start)).blocks ↔
          Ended g.state.finished b := by
  cases commit : g.commit with
  | none => exact Or.inl (inv.header commit)
  | some running =>
      have committing : g.state.log.committing = true := by
        rw [inv.committing, commit]
        rfl
      have holds := inv.stage running.1 running.2 commit
      cases at' : running.2 with
      | copying k =>
          rw [at'] at holds
          exact Or.inl holds.2.1
      | installing k =>
          rw [at'] at holds
          exact Or.inr ⟨committing, holds.2.2.1⟩
      | cleared =>
          rw [at'] at holds
          exact Or.inr ⟨committing, holds.2.2.2⟩
      | erased =>
          rw [at'] at holds
          exact Or.inl holds.2.2

omit [Fintype Pid] in
/-- One action during a commit, by a process that meets its obligation. -/
theorem exec_committing {β : Type} {action : Act β} {p : Pid} {s s' : State Pid}
    {value : β} (committing : s.log.committing = true) (ok : action.Ok p s)
    (effect : exec action p s = .done value s') :
    s'.current = s.current ∧ s'.logged = s.logged ∧
      (s'.log.committing = true ∨ s'.log.lh.n = 0) := by
  cases action with
  | bread b =>
      simp only [exec] at effect
      split at effect
      · cases effect
        exact ⟨rfl, rfl, Or.inl committing⟩
      · cases effect
  | setHeader lh => exact ok.elim
  | beginOp =>
      simp only [exec, Ops.beginOp, committing, Bool.true_or, if_true] at effect
      split at effect <;> cases effect
  | endOp =>
      have running := ok.2
      rw [committing] at running
      cases running
  | absorb b =>
      have running := ok.2.2.2.1
      rw [committing] at running
      cases running
  | endCommit =>
      cases effect
      exact ⟨rfl, rfl, Or.inr ok.2.2.1⟩
  | _ =>
      cases effect
      exact ⟨rfl, rfl, Or.inl committing⟩

omit [Fintype Pid] in
/-- Only `begin_op` sleeps on `&log`, and it changes nothing else. -/
theorem exec_again {β : Type} {action : Act β} {p : Pid} {s s' : State Pid}
    (effect : exec action p s = .again s') :
    s'.current = s.current ∧ s'.logged = s.logged ∧ s'.log = s.log := by
  cases action with
  | beginOp =>
      simp only [exec, Ops.beginOp] at effect
      split at effect
      · cases effect
      · split at effect
        · cases effect
          exact ⟨rfl, rfl, rfl⟩
        · cases effect
  | bread b =>
      simp only [exec] at effect
      split at effect <;> cases effect
  | _ => cases effect

/-- A configuration that follows the protocol has the guarantees. -/
theorem groupCommit_of_explains {config : Config Act Pid (State Pid)}
    (explains :
      (protocol quota : Protocol (_ : System Act Pid (State Pid)) _ _).Explains
        config) :
    GroupCommit quota config := by
  have owes : ∀ p {β : Type} (action : Act β) next,
      config.prog p = .act action next → action.Ok p config.shared :=
    fun p _ _ _ current => explains.obligation current
  have panics : ∀ p message, config.prog p = .panic message →
      message = "log_write: too big a transaction\n" :=
    fun p _ current => explains.panic current
  cases config
  rcases explains with ⟨g, ⟨rfl, inv⟩, _⟩
  have quiet : g.state.log.committing = true → ∀ p, g.state.current p = none := by
    intro committing
    rw [inv.committing] at committing
    exact inv.quiet committing
  constructor
  · intro committing
    refine ⟨?_, quiet committing⟩
    simp [inv.outstanding, operations, quiet committing]
  · intro p β action next current only
    have ok := owes p action next current
    cases action with
    | bwrite b => exact ok.2.1
    | clearHeader => exact ok.1
    | endCommit => exact ok.1
    | _ => cases only
  · intro committing config' step
    cases step with
    | start => exact ⟨rfl, rfl, Or.inl committing⟩
    | done current effect =>
        exact exec_committing committing (owes _ _ _ current) effect
    | again current effect =>
        rcases exec_again effect with ⟨current', logged, log⟩
        exact ⟨current', logged, Or.inl (log ▸ committing)⟩
  · intro p b next current
    have ok := owes p _ next current
    exact ⟨ok.2.2.2.1, ok.2.2.2.2, ok.2.1⟩
  · intro p current
    simpa using panics p _ current
  · exact inv.whole
  · intro p next current
    exact (owes p _ next current).2.2.2
  · intro notCommitting zero p
    rw [Bool.eq_false_iff]
    intro sleeping
    rcases inv.asleep p sleeping with committing | positive
    · rw [notCommitting] at committing
      cases committing
    · exact absurd zero (Nat.pos_iff_ne_zero.mp positive)

omit [DecidableEq Pid] in
/-- After `initlog` nothing is logged and no header is on disk. -/
theorem initial_inv {log : Log} {disk : Nat → Block}
    (clean : count (disk log.start) = 0) :
    Inv
      { state := (initial log disk : Config Act Pid (State Pid)).shared
        hand := fun _ => none
        commit := none } := by
  have empty : ∀ b, b ∉ LogHeader.blocks { log.lh with n := 0 } := by
    intro b logged
    rcases mem_blocks.mp logged with ⟨i, below, _⟩
    cases below
  have nothing : ∀ b, ¬ (Ended [] b ∨
      Running (fun _ : Pid => none) b) := by
    rintro b (⟨_, ended, _⟩ | ⟨_, _, running, _⟩)
    · cases ended
    · cases running
  constructor
  case synced => exact fun _ => Or.inr (Or.inl rfl)
  case home => exact fun b logged => absurd logged (empty b)
  case slots => exact Or.inl rfl
  case room => exact Nat.zero_le _
  case loggedSome => exact fun b opened => absurd opened (nothing b)
  case outstanding => simp [initial, operations]
  case idle => exact fun _ _ => rfl
  case committing => rfl
  case members =>
    exact fun _ b =>
      ⟨fun logged => absurd logged (empty b), fun opened => absurd opened (nothing b)⟩
  case header => exact fun _ => clean
  case pinned => exact fun _ dirty => by cases dirty
  case distinct => exact fun _ _ below => by cases below
  case loggedHome | loggedView | loggedDisk => exact fun _ _ logged => by cases logged
  case handHeld | handKind => exact fun _ _ held => by cases held
  case asleep => exact fun _ asleep => by cases asleep
  case quiet => exact fun committing => by cases committing
  case stage => exact fun _ _ committing => by cases committing

/--
Group commit: in every run in which `log_write` still has room when it has
taken `log.lock`, every state has the guarantees.
-/
theorem groupCommit (quota : Finset Nat → Bool) {log : Log} {disk : Nat → Block}
    (clean : count (disk log.start) = 0)
    {config : Config Act Pid (State Pid)}
    (run : ((processes quota).restrict roomy).Reachable (initial log disk) config) :
    GroupCommit quota config := by
  apply groupCommit_of_explains
  apply Protocol.reachable tasks_safe _ run
  exact ⟨_, ⟨rfl, initial_inv clean⟩, fun p => ⟨rfl, rfl⟩⟩

/-! ## Concrete runs -/

/-- A process is about to return from its commit. -/
def atEndCommit : Prog Act Unit → Bool
  | .act .endCommit _ => true
  | _ => false

theorem atEndCommit_iff {program : Prog Act Unit} :
    atEndCommit program = true ↔ ∃ next, program = .act .endCommit next := by
  constructor
  · intro here
    cases program with
    | act action next =>
        cases action with
        | endCommit => exact ⟨next, rfl⟩
        | _ => cases here
    | _ => cases here
  · rintro ⟨next, rfl⟩
    rfl

def zeroDisk : Nat → Block := fun _ _ => 0

/-- A process logs a block which it holds. -/
def logBlock (p : Bool) (b : Nat) (data : Block) : List (Event Bool Call) :=
  [.call p (.bread b), .run p, .call p (.write b data), .run p, .run p, .run p,
    .call p (.brelse b), .run p]

/-- One operation of one process, up to the end of its commit. -/
def oneOperation : List (Event Bool Call) :=
  [.call true .beginOp, .run true] ++ logBlock true 40 (fun _ => 1) ++
    .call true .endOp :: List.replicate 33 (.run true)

/-- In the run of one operation, the guarantees hold when it has committed. -/
theorem groupCommit_oneOperation :
    ∃ config : Config Act Bool (State Bool),
      ((processes fun _ => true).restrict roomy).Reachable
          (initial mkfsLog zeroDisk) config ∧
        atEndCommit (config.prog true) = true ∧
        config.shared.finished = [{40}] ∧
        GroupCommit (fun _ => true) config := by
  have ends :
      (((processes fun _ => true).restrict roomy).replay
          (fun call s p => Call.permitted (fun _ => true) s p call)
          Call.program oneOperation (initial mkfsLog zeroDisk)).any
        (fun config => atEndCommit (config.prog true) &&
          config.shared.finished == [{40}]) = true := by
    decide
  rcases (Option.any_eq_true _ _).mp ends with ⟨config, replayed, here⟩
  simp only [Bool.and_eq_true, beq_iff_eq] at here
  have run :
      ((processes fun _ => true).restrict roomy).Reachable
        (initial mkfsLog zeroDisk) config := by
    apply System.replay_reachable _ replayed
    exact Call.task
  exact ⟨config, run, here.1, here.2, groupCommit _ (by decide) run⟩

/-- The log of a superblock whose log area is a header and two slots. -/
def shortLog : Log where
  start := 2
  size := 3
  outstanding := 0
  committing := false
  lh := { n := 0, block := fun _ => 0 }

/--
Two operations enter `log_write` with one block logged.  Both pass the test, so
three blocks are logged, and the third slot is block 5: the block behind the
log area, and here the first one logged.
-/
def lateWrite : List (Event Bool Call) :=
  [.call true .beginOp, .run true, .call false .beginOp, .run false] ++
    logBlock true 5 (fun _ => 1) ++
    [.call true (.bread 61), .run true, .call true (.write 61 fun _ => 2),
      .run true, .run true] ++
    logBlock false 60 (fun _ => 3) ++
    [.run true, .call true (.brelse 61), .run true,
      .call false .endOp, .run false, .call true .endOp] ++
    List.replicate 65 (.run true)

/-- The commit returns while block 61 does not hold what was logged. -/
def misplaced (config : Config Act Bool (State Bool)) : Bool :=
  atEndCommit (config.prog true) &&
    config.shared.finished.any (fun ops => decide (61 ∈ ops)) &&
    (config.shared.logged 61).any fun data =>
      Bytes.byteAt data 0 != Bytes.byteAt (config.shared.disk 61) 0

/-- Without the condition on `log_write` the guarantees fail. -/
theorem not_groupCommit_lateWrite :
    ¬ ∀ config : Config Act Bool (State Bool),
      (processes fun _ => true).Reachable (initial shortLog zeroDisk) config →
        GroupCommit (fun _ => true) config := by
  intro always
  have ends :
      (replay (fun _ => true) lateWrite (initial shortLog zeroDisk)).any misplaced =
        true := by
    decide
  rcases (Option.any_eq_true _ _).mp ends with ⟨config, replayed, wrong⟩
  simp only [misplaced, Bool.and_eq_true, List.any_eq_true, decide_eq_true_eq]
    at wrong
  rcases wrong with ⟨⟨here, ops, ended, member⟩, differs⟩
  rcases atEndCommit_iff.mp here with ⟨next, current⟩
  have holds := always config (replay_reachable replayed)
  rcases holds.installed true next current 61 ⟨ops, ended, member⟩ with
    ⟨v, logged, same⟩
  simp [logged, same] at differs

end PiKernel.Logging
