import PiKernel.Bio.Cache
import PiKernel.Logging.Client
import PiKernel.Conc.Protocol

/-!
# The users of the buffer cache

Any number of processes read blocks, change blocks they hold and pass them to
`log_write` or `bwrite`, and begin and end operations, the last of which
commits.  The same calls run on an array of blocks, which is the device under
the log, and on the buffer cache.

On the array every action finds its block held by its process, and a block is
released only when its content is on disk or logged.  This is all that the
cache needs to know of its users.
-/

namespace PiKernel.Bio

open PiKernel.Conc
open PiKernel.Conc.Prog (perform)

variable {Pid : Type} [DecidableEq Pid]

/-- What a process may call. -/
inductive Use where
  | beginOp
  | endOp
  | bread (b : Nat)
  | load (b : Nat)
  | write (b : Nat) (data : Block)
  | writeThrough (b : Nat) (data : Block)
  | brelse (b : Nat)

namespace Use

def program : Use → Prog Logging.Act Unit
  | .beginOp => Logging.beginOp
  | .endOp => Logging.endOp
  | .bread b => perform (.bread b)
  | .load b => do
      let _ ← perform (.load b)
  | .write b data => do
      perform (.store b data)
      Logging.logWrite b
  | .writeThrough b data => do
      perform (.store b data)
      perform (.bwrite b)
  | .brelse b => perform (.brelse b)

/--
Only a held block is used.  `log_write` does not check for an operation; one
that is under way logs no more than its quota.
-/
def permitted (quota : Finset Nat → Bool) (holds : Nat → Bool)
    (op : Option (Finset Nat)) : Use → Bool
  | .beginOp => op.isNone
  | .endOp => op.isSome
  | .bread _ => true
  | .load b => holds b
  | .write b _ => holds b && op.all fun ops => quota (insert b ops)
  | .writeThrough b _ => holds b
  | .brelse b => holds b

end Use

/-- The users on an array of blocks. -/
def arrayUsers (quota : Finset Nat → Bool) :
    System Logging.Act Pid (Logging.State Pid) where
  exec := Logging.exec
  task s p program :=
    ∃ use : Use,
      use.permitted quota (fun b => s.holder b = some p) (s.current p) = true ∧
        program = use.program

/-- The buffer of `b` is in a variable of the process, which has its lock. -/
def Cache.holds (s : Cache Pid) (p : Pid) (b : Nat) : Bool :=
  (s.pointer p b).any fun i => s.lock i = some p && s.Caches i b

/-- The users on the buffer cache. -/
def cacheUsers (quota : Finset Nat → Bool) : System Act Pid (Cache Pid) where
  exec := exec
  task s p program :=
    ∃ use : Use,
      use.permitted quota (s.holds p) (s.current p) = true ∧
        program = use.program.expand body

/-! ## What the users promise -/

/-- A process acts on blocks it holds and loses no change at `brelse`. -/
def Promise : {β : Type} → Logging.Act β → Pid → Logging.State Pid → Prop
  | _, .load b, p, s => s.holder b = some p
  | _, .store b _, p, s => s.holder b = some p
  | _, .bwrite b, p, s => s.holder b = some p
  | _, .absorb b, p, s => s.holder b = some p
  | _, .brelse b, p, s =>
      s.holder b = some p ∧ (s.dirty b = true ∨ s.disk b = s.view b)
  | _, _, _, _ => True

/-- The panics of `log.c`. -/
def LogPanic (message : String) : Prop :=
  message = "log_write: too big a transaction\n" ∨
    message = "end_op: log.committing\n"

/-- The array, and the block which a process has changed last. -/
structure Changes (Pid : Type) where
  state : Logging.State Pid
  hand : Pid → Option Nat

@[ext]
structure Mine where
  held : Nat → Bool
  hand : Option Nat

def Changes.mine (g : Changes Pid) (p : Pid) : Mine where
  held b := g.state.holder b = some p
  hand := g.hand p

theorem Changes.held_mine {g : Changes Pid} {p : Pid} {b : Nat} :
    (g.mine p).held b = true ↔ g.state.holder b = some p :=
  decide_eq_true_iff

structure Changes.Inv (g : Changes Pid) : Prop where
  held : ∀ p b, g.hand p = some b → g.state.holder b = some p
  synced : ∀ b, g.state.dirty b = true ∨ g.state.disk b = g.state.view b ∨
    ∃ p, g.hand p = some b

/-- A process changes one block at a time, and logs or writes it at once. -/
def promises (quota : Finset Nat → Bool) :
    Protocol (arrayUsers quota : System Logging.Act Pid (Logging.State Pid))
      (Changes Pid) Mine where
  inv g s := g.state = s ∧ g.Inv
  own := Changes.mine
  ok := Promise
  mayPanic := LogPanic
  rest _ mine := mine.hand = none

section Rules

variable {quota : Finset Nat → Bool} {p : Pid} {b : Nat} {mine : Mine} {α : Type}

theorem bread_promises {post : Unit → Mine → Prop}
    (next : mine.held b = false →
      post () { mine with held := Function.update mine.held b true }) :
    (promises quota : Protocol (_ : System Logging.Act Pid _) _ _).Safe p
      (perform (.bread b)) mine post := by
  rintro g _ ⟨rfl, inv⟩ rfl
  refine ⟨trivial, ?_⟩
  by_cases free : g.state.holder b = none
  · simp only [arrayUsers, Logging.exec, free, if_true]
    refine
      ⟨{ g with state := { g.state with
          holder := Function.update g.state.holder b (some p) } },
        ⟨rfl, ?_⟩, fun q other => ?_, ?_⟩
    · exact
        { inv with
          held := by
            intro q x hand
            have owner := inv.held q x hand
            have other : x ≠ b := by
              rintro rfl
              rw [free] at owner
              cases owner
            simpa [other] using owner }
    · ext1
      · funext x
        by_cases same : x = b
        · subst same
          simp [promises, Changes.mine, free, other.symm]
        · simp [promises, Changes.mine, same]
      · rfl
    · show post () (Changes.mine _ p)
      convert next (by simp [promises, Changes.mine, free]) using 1
      ext1
      · funext x
        by_cases same : x = b
        · subst same
          simp [Changes.mine]
        · simp [promises, Changes.mine, same]
      · rfl
  · simp only [arrayUsers, Logging.exec, free, if_false]
    trivial

theorem brelse_promises {post : Unit → Mine → Prop}
    (held : mine.held b = true) (hand : mine.hand ≠ some b)
    (next : post () { mine with held := Function.update mine.held b false }) :
    (promises quota : Protocol (_ : System Logging.Act Pid _) _ _).Safe p
      (perform (.brelse b)) mine post := by
  rintro g _ ⟨rfl, inv⟩ rfl
  have holder := Changes.held_mine.mp held
  have synced : g.state.dirty b = true ∨ g.state.disk b = g.state.view b := by
    rcases inv.synced b with dirty | same | ⟨q, changed⟩
    · exact Or.inl dirty
    · exact Or.inr same
    · have owner := inv.held q b changed
      rw [holder] at owner
      cases owner
      exact absurd changed hand
  refine ⟨⟨holder, synced⟩,
    { g with state := { g.state with
      holder := Function.update g.state.holder b none } },
    ⟨rfl, ?_⟩, fun q other => ?_, ?_⟩
  · exact
      { inv with
        held := by
          intro q x changed
          have owner := inv.held q x changed
          have other : x ≠ b := by
            rintro rfl
            rw [holder] at owner
            cases owner
            exact hand changed
          simpa [other] using owner }
  · ext1
    · funext x
      by_cases same : x = b
      · subst same
        simp [promises, Changes.mine, holder, other.symm]
      · simp [promises, Changes.mine, same]
    · rfl
  · show post () (Changes.mine _ p)
    convert next using 1
    ext1
    · funext x
      by_cases same : x = b
      · subst same
        simp [Changes.mine]
      · simp [promises, Changes.mine, same]
    · rfl

theorem load_promises {post : Block → Mine → Prop}
    (held : mine.held b = true) (next : ∀ data, post data mine) :
    (promises quota : Protocol (_ : System Logging.Act Pid _) _ _).Safe p
      (perform (.load b)) mine post := by
  rintro g _ ⟨rfl, inv⟩ rfl
  exact ⟨Changes.held_mine.mp held, g, ⟨rfl, inv⟩, fun _ _ => rfl, next _⟩

theorem store_promises {post : Unit → Mine → Prop} {data : Block}
    (held : mine.held b = true) (hand : mine.hand = none)
    (next : post () { mine with hand := some b }) :
    (promises quota : Protocol (_ : System Logging.Act Pid _) _ _).Safe p
      (perform (.store b data)) mine post := by
  rintro g _ ⟨rfl, inv⟩ rfl
  have holder := Changes.held_mine.mp held
  have empty : g.hand p = none := hand
  refine ⟨holder,
    { state := { g.state with view := Function.update g.state.view b data }
      hand := Function.update g.hand p (some b) },
    ⟨rfl, ?_⟩, fun q other => ?_, ?_⟩
  · constructor
    · intro q x changed
      by_cases same : q = p
      · subst same
        simp only [Function.update_self, Option.some.injEq] at changed
        subst changed
        exact holder
      · simp only [Function.update_of_ne same] at changed
        exact inv.held q x changed
    · intro x
      by_cases same : x = b
      · subst same
        exact Or.inr (Or.inr ⟨p, Function.update_self ..⟩)
      · simp only [Function.update_of_ne same]
        refine (inv.synced x).imp_right (Or.imp_right ?_)
        rintro ⟨q, changed⟩
        refine ⟨q, ?_⟩
        rw [Function.update_of_ne, changed]
        rintro rfl
        rw [empty] at changed
        cases changed
  · ext1
    · rfl
    · exact Function.update_of_ne other ..
  · show post () (Changes.mine _ p)
    convert next using 1
    ext1
    · rfl
    · exact Function.update_self ..

/-- After `log_write` or `bwrite` the change is safe. -/
theorem settle_promises {β : Type} (action : Logging.Act β)
    {post : β → Mine → Prop} (value : β)
    (effect : ∀ s : Logging.State Pid, ∃ s', Logging.exec action p s = .done value s' ∧
      s'.holder = s.holder ∧ s'.view = s.view ∧
        (s'.dirty b = true ∨ s'.disk b = s'.view b) ∧
        ∀ x, x ≠ b → s'.dirty x = s.dirty x ∧ s'.disk x = s.disk x)
    (promise : ∀ s : Logging.State Pid, s.holder b = some p → Promise action p s)
    (held : mine.held b = true) (hand : mine.hand = none ∨ mine.hand = some b)
    (next : post value { mine with hand := none }) :
    (promises quota : Protocol (_ : System Logging.Act Pid _) _ _).Safe p
      (perform action) mine post := by
  rintro g _ ⟨rfl, inv⟩ rfl
  have holder := Changes.held_mine.mp held
  rcases effect g.state with ⟨s', done, holders, views, here, others⟩
  refine ⟨promise _ holder, ?_⟩
  simp only [arrayUsers, done]
  refine ⟨{ state := s', hand := Function.update g.hand p none }, ⟨rfl, ?_⟩,
    fun q other => ?_, ?_⟩
  · constructor
    · intro q x changed
      by_cases same : q = p
      · simp [same] at changed
      · simp only [Function.update_of_ne same] at changed
        simpa only [holders] using inv.held q x changed
    · intro x
      by_cases same : x = b
      · subst same
        exact here.imp_right Or.inl
      · simp only [(others x same).1, (others x same).2, views]
        refine (inv.synced x).imp_right (Or.imp_right ?_)
        rintro ⟨q, changed⟩
        refine ⟨q, ?_⟩
        rw [Function.update_of_ne, changed]
        rintro rfl
        have hand' : g.hand q = none ∨ g.hand q = some b := hand
        rw [changed] at hand'
        rcases hand' with empty | only
        · cases empty
        · exact same (Option.some.inj only)
  · ext1
    · simp [promises, Changes.mine, holders]
    · exact Function.update_of_ne other ..
  · show post value (Changes.mine _ p)
    convert next using 1
    ext1
    · simp [promises, Changes.mine, holders]
    · exact Function.update_self ..

theorem bwrite_promises {post : Unit → Mine → Prop}
    (held : mine.held b = true) (hand : mine.hand = none ∨ mine.hand = some b)
    (next : post () { mine with hand := none }) :
    (promises quota : Protocol (_ : System Logging.Act Pid _) _ _).Safe p
      (perform (.bwrite b)) mine post := by
  apply settle_promises (.bwrite b) () _ (fun _ holder => holder) held hand next
  intro s
  refine ⟨_, rfl, rfl, rfl, Or.inr (Function.update_self ..), fun x other => ?_⟩
  exact ⟨Function.update_of_ne other .., Function.update_of_ne other ..⟩

theorem absorb_promises {post : Unit → Mine → Prop}
    (held : mine.held b = true) (hand : mine.hand = none ∨ mine.hand = some b)
    (next : post () { mine with hand := none }) :
    (promises quota : Protocol (_ : System Logging.Act Pid _) _ _).Safe p
      (perform (.absorb b)) mine post := by
  apply settle_promises (.absorb b) () _ (fun _ holder => holder) held hand next
  intro s
  refine ⟨_, rfl, rfl, rfl, Or.inl (Function.update_self ..), fun x other => ?_⟩
  exact ⟨Function.update_of_ne other .., rfl⟩

/-- The actions on `struct log` touch no block. -/
def OnLog : {β : Type} → Logging.Act β → Prop
  | _, .readLog => True
  | _, .setHeader _ => True
  | _, .clearHeader => True
  | _, .beginOp => True
  | _, .endOp => True
  | _, .endCommit => True
  | _, _ => False

theorem onLog_promises {β : Type} {action : Logging.Act β}
    {post : β → Mine → Prop} (kind : OnLog action)
    (next : ∀ value, post value mine) :
    (promises quota : Protocol (_ : System Logging.Act Pid _) _ _).Safe p
      (perform action) mine post := by
  rintro g _ ⟨rfl, inv⟩ rfl
  have keeps : ∀ ops : Logging.Ops Pid,
      (promises quota).inv { g with state := { g.state with toOps := ops } }
        { g.state with toOps := ops } :=
    fun ops => ⟨rfl, { inv with }⟩
  cases action with
  | beginOp =>
      refine ⟨trivial, ?_⟩
      simp only [arrayUsers, Logging.exec]
      cases g.state.toOps.beginOp p with
      | done value ops => exact ⟨_, keeps ops, fun _ _ => rfl, next _⟩
      | again ops => exact ⟨_, keeps ops, fun _ => rfl⟩
      | blocked => trivial
  | readLog => exact ⟨trivial, g, ⟨rfl, inv⟩, fun _ _ => rfl, next _⟩
  | endOp => exact ⟨trivial, _, keeps _, fun _ _ => rfl, next _⟩
  | endCommit => exact ⟨trivial, _, keeps _, fun _ _ => rfl, next _⟩
  | setHeader lh => exact ⟨trivial, _, keeps _, fun _ _ => rfl, next _⟩
  | clearHeader => exact ⟨trivial, _, keeps _, fun _ _ => rfl, next _⟩
  | _ => exact kind.elim

/-! ## The code of the log -/

/-- Copying one block to another and releasing both in any order. -/
theorem copy_promises {source target first second : Nat} (opened : Nat × Nat)
    (hand : mine.hand = none)
    (orders : (opened = (source, target) ∨ opened = (target, source)) ∧
      (first = source ∧ second = target ∨ first = target ∧ second = source)) :
    (promises quota : Protocol (_ : System Logging.Act Pid _) _ _).Safe p
      (do
        perform (.bread opened.1)
        perform (.bread opened.2)
        let data ← perform (.load source)
        perform (.store target data)
        perform (.bwrite target)
        perform (.brelse first)
        perform (.brelse second))
      mine fun _ mine' => mine'.hand = none := by
  apply Protocol.Safe.bind
  apply bread_promises
  intro _
  apply Protocol.Safe.bind
  apply bread_promises
  intro free
  have apart : opened.2 ≠ opened.1 := by
    intro same
    simp [same] at free
  have holdsBoth : ∀ b, b = source ∨ b = target →
      Function.update (Function.update mine.held opened.1 true) opened.2 true b =
        true := by
    intro b which
    simp only [Function.update_apply]
    rcases orders.1 with rfl | rfl <;> rcases which with rfl | rfl <;> simp
  have releases : first ≠ second := by
    rcases orders.1 with rfl | rfl <;> rcases orders.2 with ⟨rfl, rfl⟩ | ⟨rfl, rfl⟩
    · exact apart.symm
    · exact apart
    · exact apart
    · exact apart.symm
  have which : (first = source ∨ first = target) ∧
      (second = source ∨ second = target) := by
    rcases orders.2 with ⟨rfl, rfl⟩ | ⟨rfl, rfl⟩ <;> simp
  apply Protocol.Safe.bind
  refine load_promises (holdsBoth source (Or.inl rfl)) fun data => ?_
  apply Protocol.Safe.bind
  refine store_promises (holdsBoth target (Or.inr rfl)) hand ?_
  apply Protocol.Safe.bind
  refine bwrite_promises (holdsBoth target (Or.inr rfl)) (Or.inr rfl) ?_
  apply Protocol.Safe.bind
  refine brelse_promises (holdsBoth first which.1) (by simp) ?_
  refine brelse_promises ?_ (by simp) rfl
  simp only [Function.update_of_ne releases.symm]
  exact holdsBoth second which.2

theorem writeHead_promises (hand : mine.hand = none) :
    (promises quota : Protocol (_ : System Logging.Act Pid _) _ _).Safe p
      Logging.writeHead mine fun _ mine' => mine'.hand = none := by
  unfold Logging.writeHead
  apply Protocol.Safe.bind
  refine onLog_promises trivial fun log => ?_
  apply Protocol.Safe.bind
  apply bread_promises
  intro _
  apply Protocol.Safe.bind
  refine load_promises (Function.update_self ..) fun data => ?_
  apply Protocol.Safe.bind
  refine store_promises (Function.update_self ..) hand ?_
  apply Protocol.Safe.bind
  refine bwrite_promises (Function.update_self ..) (Or.inr rfl) ?_
  exact brelse_promises (Function.update_self ..) (by simp) rfl

theorem writeLog_promises (hand : mine.hand = none) :
    (promises quota : Protocol (_ : System Logging.Act Pid _) _ _).Safe p
      Logging.writeLog mine fun _ mine' => mine'.hand = none := by
  unfold Logging.writeLog
  apply Protocol.Safe.bind
  refine onLog_promises trivial fun log => ?_
  apply Protocol.Safe.forM (fun _ mine' => mine'.hand = none)
  · intro before tail after mine' _ hand'
    apply Protocol.Safe.bind
    refine onLog_promises trivial fun log => ?_
    exact copy_promises (log.start + tail + 1, log.lh.block tail) hand'
      ⟨Or.inr rfl, Or.inl ⟨rfl, rfl⟩⟩
  · exact fun _ done => done
  · exact hand

theorem installTrans_promises (hand : mine.hand = none) :
    (promises quota : Protocol (_ : System Logging.Act Pid _) _ _).Safe p
      Logging.installTrans mine fun _ mine' => mine'.hand = none := by
  unfold Logging.installTrans
  apply Protocol.Safe.bind
  refine onLog_promises trivial fun log => ?_
  apply Protocol.Safe.forM (fun _ mine' => mine'.hand = none)
  · intro before tail after mine' _ hand'
    apply Protocol.Safe.bind
    refine onLog_promises trivial fun log => ?_
    exact copy_promises (log.start + tail + 1, log.lh.block tail) hand'
      ⟨Or.inl rfl, Or.inl ⟨rfl, rfl⟩⟩
  · exact fun _ done => done
  · exact hand

theorem commit_promises (hand : mine.hand = none) :
    (promises quota : Protocol (_ : System Logging.Act Pid _) _ _).Safe p
      Logging.commit mine fun _ mine' => mine'.hand = none := by
  unfold Logging.commit
  apply Protocol.Safe.bind
  refine onLog_promises trivial fun log => ?_
  split
  · apply Protocol.Safe.seq (writeLog_promises hand)
    intro _ _ hand
    apply Protocol.Safe.seq (writeHead_promises hand)
    intro _ _ hand
    apply Protocol.Safe.seq (installTrans_promises hand)
    intro _ _ hand
    apply Protocol.Safe.bind
    refine onLog_promises trivial fun _ => ?_
    exact writeHead_promises hand
  · exact hand

theorem endOp_promises (hand : mine.hand = none) :
    (promises quota : Protocol (_ : System Logging.Act Pid _) _ _).Safe p
      Logging.endOp mine fun _ mine' => mine'.hand = none := by
  unfold Logging.endOp
  apply Protocol.Safe.bind
  refine onLog_promises trivial fun result => ?_
  cases result with
  | none => exact Or.inr rfl
  | some doCommit =>
      cases doCommit with
      | false => exact hand
      | true =>
          refine Protocol.Safe.seq (commit_promises hand) fun _ _ hand => ?_
          exact onLog_promises trivial fun _ => hand

theorem logWrite_promises (held : mine.held b = true)
    (hand : mine.hand = some b) :
    (promises quota : Protocol (_ : System Logging.Act Pid _) _ _).Safe p
      (Logging.logWrite b) mine fun _ mine' => mine'.hand = none := by
  unfold Logging.logWrite
  apply Protocol.Safe.bind
  refine onLog_promises trivial fun log => ?_
  split
  · exact Or.inl rfl
  · exact absorb_promises held (Or.inr hand) rfl

theorem users_promise :
    (promises quota : Protocol (_ : System Logging.Act Pid _) _ _).TasksSafe := by
  apply Protocol.TasksSafe.ofSafe
  rintro g _ p _ ⟨rfl, inv⟩ hand ⟨use, permitted, rfl⟩
  cases use with
  | beginOp => exact onLog_promises trivial fun _ => hand
  | endOp => exact endOp_promises hand
  | bread b => exact bread_promises fun _ => hand
  | load b =>
      apply Protocol.Safe.bind
      exact load_promises permitted fun _ => hand
  | write b data =>
      simp only [Use.permitted, Bool.and_eq_true] at permitted
      apply Protocol.Safe.bind
      refine store_promises permitted.1 hand ?_
      exact logWrite_promises permitted.1 rfl
  | writeThrough b data =>
      apply Protocol.Safe.bind
      refine store_promises permitted hand ?_
      exact bwrite_promises permitted (Or.inr rfl) rfl
  | brelse b =>
      refine brelse_promises permitted ?_ hand
      intro same
      have empty : (g.mine p).hand = none := hand
      have some : (g.mine p).hand = _ := same
      rw [empty] at some
      cases some

end Rules

/-- In every run on the array the users keep their promises. -/
theorem promises_kept {quota : Finset Nat → Bool} {log : Logging.Log}
    {disk : Nat → Block} {config : Config Logging.Act Pid (Logging.State Pid)}
    (run : (arrayUsers quota).Reachable (Logging.initial log disk) config) :
    (promises quota).Explains config := by
  apply Protocol.reachable users_promise _ run
  refine ⟨{ state := _, hand := fun _ => none }, ⟨rfl, ?_⟩, fun p => rfl⟩
  exact ⟨nofun, fun _ => Or.inr (Or.inl rfl)⟩

end PiKernel.Bio
