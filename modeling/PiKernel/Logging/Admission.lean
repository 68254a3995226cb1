import PiKernel.Logging.Invariant
import PiKernel.Conc.Protocol

/-!
# Admission of operations to the log

`begin_op` reserves `MAXOPBLOCKS` slots for every operation, three times ten of
the thirty entries of the header.  `log_write` refuses the thirtieth block,
because the header block takes one of the thirty blocks of the log, and it
makes its test before it looks for the block among those already logged.  The
reservation is therefore kept for operations of up to nine blocks, and is not
for ten.
-/

namespace PiKernel.Logging

open PiKernel.Conc
open PiKernel.Conc.Prog (perform)
open LogHeader

variable {Pid : Type} [DecidableEq Pid] [Fintype Pid]

/-- Operations that log at most `limit` different blocks. -/
def atMost (limit : Nat) (ops : Finset Nat) : Bool :=
  ops.card ≤ limit

/-! ## Counting -/

/-- What is left of a reservation of nine blocks. -/
def unusedBy (op : Option (Finset Nat)) : Nat :=
  op.elim 0 fun ops => 9 - ops.card

/-- The blocks which the running operations may still log. -/
def unused (current : Pid → Option (Finset Nat)) : Nat :=
  ∑ p, unusedBy (current p)

theorem unused_update (current : Pid → Option (Finset Nat)) (p : Pid)
    (op : Option (Finset Nat)) :
    unused (Function.update current p op) + unusedBy (current p) =
      unused current + unusedBy op :=
  sum_update unusedBy current p op

omit [DecidableEq Pid] in
theorem unused_le (current : Pid → Option (Finset Nat)) :
    unused current ≤ 9 * operations current := by
  have each : ∀ p, unusedBy (current p) ≤
      if (current p).isSome then 9 else 0 := by
    intro p
    cases current p with
    | none => exact le_refl _
    | some ops => exact Nat.sub_le _ _
  calc
    unused current ≤ ∑ p, if (current p).isSome then 9 else 0 :=
      Finset.sum_le_sum fun p _ => each p
    _ = 9 * operations current := by
      rw [← Finset.sum_filter, Finset.sum_const, Nat.nsmul_eq_mul, operations,
        Nat.mul_comm]

/-! ## The protocol -/

/-- The shared state and the committing process; is `log.lh` empty again? -/
structure Tally (Pid : Type) where
  state : State Pid
  commit : Option (Pid × Bool)

/-- What a process knows of its own operation and commit. -/
@[ext]
structure Share where
  op : Option (Finset Nat)
  commit : Option Bool

def Tally.share (t : Tally Pid) (p : Pid) : Share where
  op := t.state.current p
  commit :=
    t.commit.bind fun running => if running.1 = p then some running.2 else none

/-- Every operation finds the room that it was promised. -/
structure Tally.Inv (t : Tally Pid) : Prop where
  /-- Header entries in use and promised; one of 29 is always left. -/
  promised : t.state.log.lh.n + unused t.state.current ≤ 28
  size : t.state.log.size = LOGSIZE
  entered : ∀ p ops, t.state.current p = some ops →
    ops.card ≤ 9 ∧ ∀ b ∈ ops, b ∈ t.state.log.lh.blocks
  outstanding : t.state.log.outstanding = operations t.state.current
  idle : t.state.log.committing = false → t.state.log.outstanding = 0 →
    t.state.log.lh.n = 0
  committing : t.state.log.committing = t.commit.isSome
  quiet : t.commit.isSome → ∀ p, t.state.current p = none
  empty : ∀ p, t.commit = some (p, true) → t.state.log.lh.n = 0

/-- The actions that leave `struct log` and the operations alone. -/
def Act.OnData : {β : Type} → Act β → Prop
  | _, .bread _ => True
  | _, .load _ => True
  | _, .store _ _ => True
  | _, .bwrite _ => True
  | _, .brelse _ => True
  | _, .readLog => True
  | _, _ => False

def tally (quota : Finset Nat → Bool) :
    Protocol (processes quota : System Act Pid (State Pid)) (Tally Pid) Share where
  inv t s := t.state = s ∧ t.Inv
  own := Tally.share
  ok _ _ _ := True
  mayPanic _ := False
  rest _ mine := mine.commit = none

section Rules

variable {quota : Finset Nat → Bool} {p : Pid} {b : Nat} {mine : Share} {α : Type}

theorem onData_silent {β : Type} (action : Act β) (kind : action.OnData)
    (t : Tally Pid) (s : State Pid)
    (inv : (tally quota).inv t s) (owned : (tally quota).own t p = mine) :
    (tally quota).ok action p s ∧
      (tally quota).Accepts p t (fun _ mine' => mine' = mine)
        ((processes quota).exec action p s) := by
  rcases inv with ⟨rfl, inv⟩
  refine ⟨trivial, ?_⟩
  have keeps : ∀ (value : β) (s' : State Pid), s'.log = t.state.log →
      s'.current = t.state.current →
      (tally quota).Accepts p t (fun _ mine' => mine' = mine)
        (.done value s') := by
    intro value s' log current
    have same : ∀ q, Tally.share { t with state := s' } q = t.share q := by
      intro q
      simp [Tally.share, current]
    refine ⟨{ t with state := s' }, ⟨rfl, ?_⟩, fun q _ => same q,
      (same p).trans owned⟩
    constructor <;> simp only [log, current]
    exacts [inv.promised, inv.size, inv.entered, inv.outstanding, inv.idle,
      inv.committing, inv.quiet, inv.empty]
  cases action with
  | bread b =>
      simp only [processes, exec]
      split
      · exact keeps () _ rfl rfl
      · trivial
  | load b => exact keeps _ _ rfl rfl
  | readLog => exact keeps _ _ rfl rfl
  | store b data => exact keeps _ _ rfl rfl
  | bwrite b => exact keeps _ _ rfl rfl
  | brelse b => exact keeps _ _ rfl rfl
  | _ => exact kind.elim

/-- Copying blocks does not change what is promised. -/
theorem onData_safe {program : Prog Act α} (all : program.All Act.OnData) :
    (tally quota : Protocol (_ : System Act Pid (State Pid)) _ _).Safe p program
      mine fun _ mine' => mine' = mine :=
  Protocol.Safe.ofAll onData_silent all

omit [Fintype Pid] in
theorem Tally.commit_share {t : Tally Pid} {empty : Bool}
    (commit : (t.share p).commit = some empty) : t.commit = some (p, empty) := by
  simp only [share, Option.bind_eq_some_iff] at commit
  rcases commit with ⟨⟨q, empty'⟩, running, same⟩
  split at same
  · cases same
    rw [running, ‹q = p›]
  · cases same

omit [DecidableEq Pid] in
theorem Tally.Inv.noCommit {t : Tally Pid} (inv : t.Inv)
    (running : (t.state.current p).isSome) : t.commit = none := by
  cases commit : t.commit with
  | none => rfl
  | some committer =>
      have quiet := inv.quiet (by simp [commit]) p
      simp [quiet] at running

/-- A new operation finds nine blocks left for it besides the spare one. -/
theorem Tally.Inv.beginOp {t : Tally Pid} (inv : t.Inv)
    (outside : t.state.current p = none)
    (admitted : t.state.log.committing = false)
    (space : t.state.log.full = false) :
    Tally.Inv
      { t with
        state :=
          { t.state with
            log := { t.state.log with
              outstanding := t.state.log.outstanding + 1 }
            current := Function.update t.state.current p (some ∅) } } := by
  have noCommit : t.commit = none := by
    simpa [admitted] using inv.committing.symm
  have added := unused_update t.state.current p (some ∅)
  have bound := unused_le t.state.current
  have idle := inv.idle admitted
  simp only [outside, unusedBy, Option.elim_none, Option.elim_some,
    Finset.card_empty] at added
  simp only [Log.full, decide_eq_false_iff_not, gt_iff_lt, Nat.not_lt, LOGSIZE,
    MAXOPBLOCKS] at space
  rw [← inv.outstanding] at bound
  exact
    { inv with
      promised := by
        simp only
        by_cases first : t.state.log.outstanding = 0
        · have empty := idle first
          omega
        · omega
      entered := by
        intro q ops running
        by_cases same : q = p
        · subst same
          simp only [Function.update_self, Option.some.injEq] at running
          subst running
          exact ⟨Nat.zero_le _, fun b member => by cases member⟩
        · simp only [Function.update_of_ne same] at running
          exact inv.entered q ops running
      outstanding := by
        rw [operations_begin outside, ← inv.outstanding]
      idle := by
        intro _ zero
        cases zero
      quiet := by simp [noCommit] }

/-- Logging a block uses up what was promised for it. -/
theorem Tally.Inv.absorb {t : Tally Pid} (inv : t.Inv) {ops : Finset Nat}
    (running : t.state.current p = some ops) (small : (insert b ops).card ≤ 9) :
    Tally.Inv { t with state := t.state.absorb p b } := by
  have here : (t.state.current p).isSome := by simp [running]
  have noCommit := inv.noCommit here
  have opened : (t.state.current p).map (insert b) = some (insert b ops) := by
    rw [running]
    rfl
  have changed := unused_update t.state.current p (some (insert b ops))
  simp only [running, unusedBy, Option.elim_some] at changed
  have promised := inv.promised
  rw [State.absorb, Ops.absorb, opened]
  exact
    { inv with
      promised := by
        simp only
        by_cases known : b ∈ ops
        · have logged := (inv.entered p ops running).2 b known
          rw [absorb_of_mem logged]
          rw [Finset.insert_eq_of_mem known] at changed small ⊢
          omega
        · have grown : (t.state.log.lh.absorb b).n ≤ t.state.log.lh.n + 1 :=
            absorb_n_le
          rw [Finset.card_insert_of_notMem known] at changed small
          omega
      entered := by
        intro q ops' running'
        by_cases same : q = p
        · subst same
          simp only [Function.update_self, Option.some.injEq] at running'
          subst running'
          refine ⟨small, fun x member => mem_blocks_absorb.mpr ?_⟩
          rcases Finset.mem_insert.mp member with rfl | earlier
          · exact Or.inl rfl
          · exact Or.inr ((inv.entered q ops running).2 x earlier)
        · simp only [Function.update_of_ne same] at running'
          rcases inv.entered q ops' running' with ⟨small', logged⟩
          exact ⟨small', fun x member => mem_blocks_absorb.mpr (Or.inr (logged x member))⟩
      outstanding := by
        rw [operations_log here]
        exact inv.outstanding
      idle := by
        intro notCommitting zero
        have none : t.state.log.outstanding = 0 := zero
        have positive : 0 < operations t.state.current :=
          Finset.card_pos.mpr ⟨p, by simpa using here⟩
        rw [← inv.outstanding] at positive
        omega
      quiet := by simp [noCommit]
      empty := by simp [noCommit] }

/-- An operation gives back what it did not use. -/
theorem Tally.Inv.endOp {t : Tally Pid} (inv : t.Inv) {ops : Finset Nat}
    (running : t.state.current p = some ops) (asleep : Pid → Bool) :
    Tally.Inv
      { state :=
          { t.state with
            log := { t.state.log with
              outstanding := t.state.log.outstanding - 1
              committing := decide (t.state.log.outstanding - 1 = 0) }
            asleep := asleep
            current := Function.update t.state.current p none
            finished := ops :: t.state.finished }
        commit :=
          if t.state.log.outstanding - 1 = 0 then some (p, false) else none } := by
  have here : (t.state.current p).isSome := by simp [running]
  have counted := operations_end here
  rw [← inv.outstanding] at counted
  have changed := unused_update t.state.current p none
  simp only [unusedBy, Option.elim_none] at changed
  have promised := inv.promised
  exact
    { inv with
      promised := by
        simp only
        omega
      entered := by
        intro q ops' running'
        by_cases same : q = p
        · simp [same] at running'
        · simp only [Function.update_of_ne same] at running'
          exact inv.entered q ops' running'
      outstanding := by
        simp only
        omega
      idle := by
        intro notCommitting zero
        have last : t.state.log.outstanding - 1 = 0 := zero
        simp [last] at notCommitting
      committing := by
        by_cases last : t.state.log.outstanding - 1 = 0 <;> simp [last]
      quiet := by
        intro commit q
        by_cases last : t.state.log.outstanding - 1 = 0
        · by_contra other
          have positive :
              0 < operations (Function.update t.state.current p none) :=
            Finset.card_pos.mpr
              ⟨q, by simpa [Option.isSome_iff_ne_none] using other⟩
          omega
        · simp [last] at commit
      empty := by
        intro q commit
        by_cases last : t.state.log.outstanding - 1 = 0 <;> simp [last] at commit }

/-! ## The code -/

theorem beginOp_tally (op : mine.op = none) (resting : mine.commit = none) :
    (tally quota : Protocol (_ : System Act Pid (State Pid)) _ _).Safe p beginOp
      mine fun _ mine' => mine'.commit = none := by
  rintro t _ ⟨rfl, inv⟩ rfl
  refine ⟨trivial, ?_⟩
  simp only [processes, exec, Ops.beginOp]
  split
  · trivial
  · split
    · exact
        ⟨{ t with state := { t.state with
            asleep := Function.update t.state.asleep p true } },
          ⟨rfl, { inv with }⟩, fun _ => rfl⟩
    · rename_i admitted
      simp only [Bool.or_eq_true, not_or, Bool.not_eq_true] at admitted
      refine ⟨_, ⟨rfl, inv.beginOp op admitted.1 admitted.2⟩, fun q other => ?_,
        resting⟩
      ext1
      · exact Function.update_of_ne other ..
      · rfl

theorem writeHead_onData : writeHead.All Act.OnData := by
  simp [writeHead, Prog.All, perform, Act.OnData]

theorem writeLog_onData : writeLog.All Act.OnData := by
  refine Prog.All.bind ⟨trivial, fun _ => trivial⟩ fun log => ?_
  apply Prog.All.forM
  intro tail
  simp [Prog.All, perform, Act.OnData]

theorem installTrans_onData : installTrans.All Act.OnData := by
  refine Prog.All.bind ⟨trivial, fun _ => trivial⟩ fun log => ?_
  apply Prog.All.forM
  intro tail
  simp [Prog.All, perform, Act.OnData]

/-- The commit knows whether the log is empty. -/
theorem readLog_tally {post : Log → Share → Prop}
    (commit : mine.commit = some false)
    (logged : ∀ log, 0 < log.lh.n → post log mine)
    (nothing : ∀ log, log.lh.n = 0 →
      post log { mine with commit := some true }) :
    (tally quota : Protocol (_ : System Act Pid (State Pid)) _ _).Safe p
      (perform .readLog) mine post := by
  rintro t _ ⟨rfl, inv⟩ rfl
  refine ⟨trivial, ?_⟩
  by_cases empty : t.state.log.lh.n = 0
  · have running := Tally.commit_share commit
    refine ⟨{ t with commit := some (p, true) }, ⟨rfl, ?_⟩, fun q other => ?_, ?_⟩
    · exact
        { inv with
          committing := by simpa [running] using inv.committing
          quiet := fun _ => inv.quiet (by simp [running])
          empty := fun _ _ => empty }
    · simp [tally, Tally.share, running, other.symm]
    · show post t.state.log (Tally.share _ p)
      convert nothing t.state.log empty using 1
      ext1
      · rfl
      · exact if_pos rfl
  · exact ⟨t, ⟨rfl, inv⟩, fun _ _ => rfl,
      logged _ (Nat.pos_of_ne_zero empty)⟩

omit [Fintype Pid] in
/-- Only the committing process sees whether the log is empty. -/
theorem share_commit {t : Tally Pid} {log : Log} {before after : Bool} {q : Pid}
    (running : t.commit = some (p, before)) (other : q ≠ p) :
    Tally.share
        { state := { t.state with log := log }
          commit := some (p, after) } q =
      t.share q := by
  simp [Tally.share, running, other.symm]

theorem clearHeader_tally {post : Unit → Share → Prop} {before : Bool}
    (commit : mine.commit = some before)
    (next : post () { mine with commit := some true }) :
    (tally quota : Protocol (_ : System Act Pid (State Pid)) _ _).Safe p
      (perform .clearHeader) mine post := by
  rintro t _ ⟨rfl, inv⟩ rfl
  have running := Tally.commit_share commit
  have quiet := inv.quiet (by simp [running])
  have promised := inv.promised
  refine ⟨trivial,
    { state := { t.state with
        log := { t.state.log with lh := { t.state.log.lh with n := 0 } } }
      commit := some (p, true) }, ⟨rfl, ?_⟩, fun q other => ?_, ?_⟩
  · exact
      { inv with
        promised := by
          simp only
          omega
        entered := by
          intro q ops running'
          have resting : t.state.current q = some ops := running'
          rw [quiet q] at resting
          cases resting
        idle := fun _ _ => rfl
        committing := by simpa [running] using inv.committing
        quiet := fun _ => quiet
        empty := fun _ _ => rfl }
  · exact share_commit running other
  · show post () (Tally.share _ p)
    convert next using 1
    ext1
    · rfl
    · exact if_pos rfl

theorem endCommit_tally (commit : mine.commit = some true) :
    (tally quota : Protocol (_ : System Act Pid (State Pid)) _ _).Safe p
      (perform .endCommit) mine fun _ mine' => mine'.commit = none := by
  rintro t _ ⟨rfl, inv⟩ rfl
  have running := Tally.commit_share commit
  have empty := inv.empty p running
  refine ⟨trivial,
    { state := { t.state with toOps := t.state.toOps.endCommit }, commit := none }, ⟨rfl, ?_⟩,
    fun q other => ?_, rfl⟩
  · exact
      { inv with
        idle := fun _ _ => empty
        committing := rfl
        quiet := nofun
        empty := nofun }
  · simp [tally, Tally.share, Ops.endCommit, Ops.wakeup, running, other.symm]

theorem commit_tally (commits : mine.commit = some false) :
    (tally quota : Protocol (_ : System Act Pid (State Pid)) _ _).Safe p commit
      mine fun _ mine' => mine'.commit = some true := by
  unfold commit
  apply Protocol.Safe.bind
  apply readLog_tally commits
  · intro log some
    simp only [gt_iff_lt, some, if_true]
    apply Protocol.Safe.seq (onData_safe writeLog_onData)
    rintro _ _ rfl
    apply Protocol.Safe.seq (onData_safe writeHead_onData)
    rintro _ _ rfl
    apply Protocol.Safe.seq (onData_safe installTrans_onData)
    rintro _ _ rfl
    apply Protocol.Safe.bind
    apply clearHeader_tally commits
    apply (onData_safe writeHead_onData).mono
    rintro _ _ rfl
    rfl
  · intro log empty
    simp only [empty, gt_iff_lt, Nat.lt_irrefl, if_false]
    rfl

theorem endOp_tally {ops : Finset Nat} (op : mine.op = some ops) :
    (tally quota : Protocol (_ : System Act Pid (State Pid)) _ _).Safe p endOp
      mine fun _ mine' => mine'.commit = none := by
  unfold endOp
  apply Protocol.Safe.bind
  rintro t _ ⟨rfl, inv⟩ rfl
  have op' : t.state.current p = some ops := op
  have noCommit := inv.noCommit (p := p) (by simp [op'])
  have notCommitting : t.state.log.committing = false := by
    rw [inv.committing, noCommit]
    rfl
  refine ⟨trivial, ?_⟩
  have frame : ∀ (s : State Pid) (commit : Option (Pid × Bool)) (q : Pid), q ≠ p →
      s.current = Function.update t.state.current p none →
      (commit = none ∨ ∃ empty, commit = some (p, empty)) →
      Tally.share { state := s, commit := commit } q = t.share q := by
    intro s commit q other current whose
    ext1
    · show s.current q = t.state.current q
      rw [current, Function.update_of_ne other]
    · rcases whose with rfl | ⟨empty, rfl⟩ <;>
        simp [Tally.share, noCommit, other.symm]
  by_cases last : t.state.log.outstanding - 1 = 0
  · have ended := inv.endOp op' t.state.asleep
    simp only [last, decide_true, if_true] at ended
    simp only [processes, exec, Ops.endOp, notCommitting, last, if_true, op',
      Option.getD_some, Bool.false_eq_true, if_false]
    refine ⟨_, ⟨rfl, ended⟩, fun q other => frame _ _ q other rfl (Or.inr ⟨_, rfl⟩), ?_⟩
    apply Protocol.Safe.seq (commit_tally (if_pos rfl))
    intro _ _ empty
    exact endCommit_tally empty
  · have ended := inv.endOp op' fun _ => false
    simp only [last, decide_false, if_false] at ended
    simp only [processes, exec, Ops.endOp, notCommitting, last, if_false, op',
      Option.getD_some, Bool.false_eq_true, Ops.wakeup]
    exact ⟨_, ⟨rfl, ended⟩, fun q other => frame _ _ q other rfl (Or.inl rfl), rfl⟩

theorem absorb_tally {ops : Finset Nat} (op : mine.op = some ops)
    (small : (insert b ops).card ≤ 9) (resting : mine.commit = none) :
    (tally quota : Protocol (_ : System Act Pid (State Pid)) _ _).Safe p
      (perform (.absorb b)) mine fun _ mine' => mine'.commit = none := by
  rintro t _ ⟨rfl, inv⟩ rfl
  refine ⟨trivial, _, ⟨rfl, inv.absorb op small⟩, fun q other => ?_, resting⟩
  ext1
  · exact Function.update_of_ne other ..
  · rfl

/-- With a spare entry for every running operation the test never fails. -/
theorem logWrite_tally {ops : Finset Nat} (op : mine.op = some ops)
    (small : (insert b ops).card ≤ 9) (resting : mine.commit = none) :
    (tally quota : Protocol (_ : System Act Pid (State Pid)) _ _).Safe p
      (logWrite b) mine fun _ mine' => mine'.commit = none := by
  unfold logWrite
  apply Protocol.Safe.bind
  rintro t _ ⟨rfl, inv⟩ owned
  refine ⟨trivial, t, ⟨rfl, inv⟩, fun _ _ => rfl, ?_⟩
  have room : t.state.log.tooBig = false := by
    have promised := inv.promised
    simp only [Log.tooBig, inv.size, LOGSIZE, MAXOPBLOCKS, Bool.or_eq_false_iff,
      decide_eq_false_iff_not, ge_iff_le, Nat.not_le]
    omega
  beta_reduce
  rw [owned]
  show (tally quota).Safe p (if t.state.log.tooBig then _ else _) mine _
  rw [if_neg (by simp [room])]
  exact absorb_tally op small resting

theorem tasks_tally (within : ∀ ops, quota ops = true → ops.card ≤ 9) :
    (tally quota : Protocol (_ : System Act Pid (State Pid)) _ _).TasksSafe := by
  apply Protocol.TasksSafe.ofSafe
  rintro t _ p _ ⟨rfl, inv⟩ resting ⟨call, permitted, rfl⟩
  have onData : ∀ program : Prog Act Unit, program.All Act.OnData →
      (tally quota).Safe p program (t.share p) fun _ mine => mine.commit = none :=
    fun program all => (onData_safe all).mono fun _ _ same => same ▸ resting
  cases call with
  | beginOp =>
      have outside : t.state.current p = none := by
        simpa [Call.permitted] using permitted
      exact beginOp_tally outside resting
  | endOp =>
      have running : (t.state.current p).isSome := by
        simpa [Call.permitted] using permitted
      rcases Option.isSome_iff_exists.mp running with ⟨ops, op⟩
      exact endOp_tally op
  | bread b => exact onData _ ⟨trivial, fun _ => trivial⟩
  | load b => exact onData _ ⟨trivial, fun _ => trivial⟩
  | write b data =>
      simp only [Call.permitted, Bool.and_eq_true] at permitted
      rcases (Option.any_eq_true _ _).mp permitted.2 with ⟨ops, op, allowed⟩
      have stores : (perform (Act.store b data)).All Act.OnData :=
        ⟨trivial, fun _ => trivial⟩
      apply Protocol.Safe.seq (onData_safe stores)
      rintro _ _ rfl
      exact logWrite_tally op (within _ allowed) resting
  | brelse b => exact onData _ ⟨trivial, fun _ => trivial⟩

end Rules

/-! ## The threshold -/

omit [DecidableEq Pid] in
theorem initial_tally {disk : Nat → Block} :
    Tally.Inv
      { state := (initial mkfsLog disk : Config Act Pid (State Pid)).shared
        commit := none } := by
  constructor
  case promised => simp [unused, unusedBy, initial, mkfsLog]
  case outstanding => simp [initial, operations]
  case idle => exact fun _ _ => rfl
  case size => rfl
  case committing => rfl
  case entered => exact fun _ _ running => by cases running
  all_goals simp

omit [Fintype Pid] in
/-- A larger quota permits more runs. -/
theorem Call.permitted_mono {few many : Finset Nat → Bool}
    (more : ∀ ops, few ops = true → many ops = true) {call : Call} {s : State Pid}
    {p : Pid} (permitted : call.permitted few s p = true) :
    call.permitted many s p = true := by
  cases call with
  | write b data =>
      simp only [Call.permitted, Bool.and_eq_true, Option.any_eq_true] at *
      rcases permitted with ⟨here, ops, op, allowed⟩
      exact ⟨here, ops, op, more _ allowed⟩
  | _ => exact permitted

omit [Fintype Pid] in
theorem reachable_mono {few many : Finset Nat → Bool}
    (more : ∀ ops, few ops = true → many ops = true)
    {config config' : Config Act Pid (State Pid)}
    (run : (processes few).Reachable config config') :
    (processes many).Reachable config config' := by
  induction run with
  | refl => exact .refl
  | tail _ step ih =>
      refine ih.tail ?_
      cases step with
      | start idle permitted =>
          rcases permitted with ⟨call, permitted, same⟩
          exact .start idle ⟨call, Call.permitted_mono more permitted, same⟩
      | done current effect => exact .done current effect
      | again current effect => exact .again current effect

/-- Process `p` logs ten blocks of its own. -/
def logTen (p : Fin 3) : List (Event (Fin 3) Call) :=
  (List.range MAXOPBLOCKS).flatMap fun i =>
    [.call p (.bread (32 + 10 * p + i)), .run p,
      .call p (.write (32 + 10 * p + i) fun _ => 0), .run p, .run p, .run p]

/-- Three operations use their reservations; the last block is refused. -/
def fullReservation : List (Event (Fin 3) Call) :=
  [.call 0 .beginOp, .run 0, .call 1 .beginOp, .run 1, .call 2 .beginOp, .run 2] ++
    logTen 0 ++ logTen 1 ++ (logTen 2).dropLast

def refused : Prog Act Unit → Bool
  | .panic message => message == "log_write: too big a transaction\n"
  | _ => false

theorem refused_iff {program : Prog Act Unit} :
    refused program = true ↔
      program = .panic "log_write: too big a transaction\n" := by
  cases program <;> simp [refused]

theorem fullReservation_ends :
    ∃ config : Config Act (Fin 3) (State (Fin 3)),
      (processes (atMost MAXOPBLOCKS)).Reachable
          (initial mkfsLog fun _ _ => 0) config ∧
        config.prog 2 = .panic "log_write: too big a transaction\n" := by
  have ends :
      (replay (atMost MAXOPBLOCKS) fullReservation
          (initial mkfsLog fun _ _ => 0)).any
        (fun config => refused (config.prog 2)) = true := by
    decide +kernel
  rcases (Option.any_eq_true _ _).mp ends with ⟨config, replayed, here⟩
  exact ⟨config, replay_reachable replayed, refused_iff.mp here⟩

/--
Admission to the log.  With the log that `mkfs` makes, no `log_write` finds the
transaction too big in any run of any number of processes whose operations log
at most `limit` different blocks, if and only if `limit` is below `MAXOPBLOCKS`.
-/
theorem logWrite_admitted_iff (limit : Nat) :
    (∀ (n : Nat) (disk : Nat → Block) (config : Config Act (Fin n) (State (Fin n))),
      (processes (atMost limit)).Reachable (initial mkfsLog disk) config →
        ∀ p, config.prog p ≠ .panic "log_write: too big a transaction\n") ↔
      limit < MAXOPBLOCKS := by
  constructor
  · intro never
    by_contra large
    rcases fullReservation_ends with ⟨config, run, here⟩
    refine never 3 _ config (reachable_mono ?_ run) 2 here
    intro ops within
    simp only [atMost, decide_eq_true_eq] at within ⊢
    omega
  · intro small n disk config run p current
    have within : ∀ ops, atMost limit ops = true → ops.card ≤ 9 := by
      intro ops within
      simp only [atMost, decide_eq_true_eq] at within
      simp only [MAXOPBLOCKS] at small
      omega
    have start :
        (tally (atMost limit)).Explains
          (initial mkfsLog disk : Config Act (Fin n) (State (Fin n))) :=
      ⟨_, ⟨rfl, initial_tally⟩, fun _ => rfl⟩
    exact (Protocol.reachable (tasks_tally within) start run).panic current

/-- The reservation of `MAXOPBLOCKS` is not honoured. -/
theorem not_logWrite_admitted :
    ¬ ∀ config : Config Act (Fin 3) (State (Fin 3)),
      (processes (atMost MAXOPBLOCKS)).Reachable
          (initial mkfsLog fun _ _ => 0) config →
        ∀ p, config.prog p ≠ .panic "log_write: too big a transaction\n" := by
  intro always
  rcases fullReservation_ends with ⟨config, run, here⟩
  exact always config run 2 here

end PiKernel.Logging
