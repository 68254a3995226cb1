import PiKernel.Bio.Invariant
import PiKernel.Conc.Simulation

/-!
# The buffer cache behaves as an array of blocks

Every run of the users on the buffer cache is explained by a run of the same
users on the array.  A block changes hands in the array when its sleep-lock
does; all other steps of `bget`, `bread` and `sdrw` are invisible there.
`Matches` keeps track of how far a process is in the code of `bio.c`.
-/

namespace PiKernel.Bio

open PiKernel.Conc
open PiKernel.Conc.Prog (perform)

variable {Pid : Type} [DecidableEq Pid] [Fintype Pid]

/-! ## Programs on the cache and on the array -/

/-- What is left of `bread` after the test of `B_VALID`. -/
def filled (b : Nat) (i : Fin NBUF) (rest : Prog Logging.Act Unit) (valid : Bool) :
    Prog Act Unit :=
  Prog.bind
    (Prog.bind (if valid then .ret i else sdrw i >>= fun _ => .ret i)
      fun i => perform (.assign b i))
    fun _ => rest.expand body

/-- What is left of `sdrw` after its test. -/
def transferred (i : Fin NBUF) (rest : Prog Act Unit) (nothing : Bool) :
    Prog Act Unit :=
  Prog.bind
    (if nothing then .panic "sdrw: nothing to do" else perform (.transfer i))
    fun _ => rest

theorem filled_false (b : Nat) (i : Fin NBUF) (rest : Prog Logging.Act Unit) :
    filled b i rest false =
      .act (.idleTransfer i)
        (transferred i (.act (.assign b i) fun _ => rest.expand body)) := by
  apply congrArg (Prog.act _)
  funext nothing
  cases nothing with
  | true => rfl
  | false => rfl

/-- What is left of `bwrite` after the test of the sleep-lock. -/
def written (i : Fin NBUF) (rest : Prog Act Unit) (holding : Bool) : Prog Act Unit :=
  Prog.bind
    (if holding then perform (.markDirty i) >>= fun _ => sdrw i else .panic "bwrite\n")
    fun _ => rest

/-- What is left of `brelse` after the test of the sleep-lock. -/
def released (i : Fin NBUF) (rest : Prog Act Unit) (holding : Bool) : Prog Act Unit :=
  Prog.bind
    (if holding then perform (.releasesleep i) >>= fun _ => perform (.unref i)
    else .panic "brelse\n")
    fun _ => rest

/-- The action is a `bget` that finds no buffer. -/
def Act.Starves (p : Pid) (s : Cache Pid) : {β : Type} → Act β → Prop
  | _, .bget dev blockno => (s.bget p dev blockno).1 = none
  | _, _ => False

/--
The program left on the cache is what the program left on the array becomes,
up to the place which the process has reached in `bio.c`.  `dry` says whether
`bget` may have found no buffer.
-/
inductive Matches (dry : Prop) (pointer : Nat → Option (Fin NBUF)) :
    Phase → Prog Logging.Act Unit → Prog Act Unit → Prop where
  | between {rest : Prog Logging.Act Unit} {left : Prog Act Unit}
      (same : left = rest.expand body) :
      Matches dry pointer .idle rest left
  | noBuffers {b : Nat} {next : Unit → Prog Logging.Act Unit} (starved : dry) :
      Matches dry pointer .idle (.act (.bread b) next) (.panic "bget: no buffers\n")
  | waiting {b : Nat} {i : Fin NBUF} {next : Unit → Prog Logging.Act Unit} :
      Matches dry pointer (.waiting b i) (.act (.bread b) next)
        (.act (.acquiresleep i) fun _ => .act (.valid i) (filled b i (next ())))
  | locked {b : Nat} {i : Fin NBUF} {rest : Prog Logging.Act Unit} :
      Matches dry pointer (.locked b i) rest (.act (.valid i) (filled b i rest))
  | empty {b : Nat} {i : Fin NBUF} {rest : Prog Logging.Act Unit} :
      Matches dry pointer (.empty b i) rest
        (.act (.idleTransfer i)
          (transferred i (.act (.assign b i) fun _ => rest.expand body)))
  | reading {b : Nat} {i : Fin NBUF} {rest : Prog Logging.Act Unit} :
      Matches dry pointer (.empty b i) rest
        (.act (.transfer i) fun _ => .act (.assign b i) fun _ => rest.expand body)
  | ready {b : Nat} {i : Fin NBUF} {rest : Prog Logging.Act Unit} :
      Matches dry pointer (.ready b i) rest
        (.act (.assign b i) fun _ => rest.expand body)
  | load {b : Nat} {i : Fin NBUF} {next : Block → Prog Logging.Act Unit}
      (at' : pointer b = some i) :
      Matches dry pointer .idle (.act (.load b) next)
        (.act (.load i) fun data => (next data).expand body)
  | store {b : Nat} {i : Fin NBUF} {data : Block}
      {next : Unit → Prog Logging.Act Unit} (at' : pointer b = some i) :
      Matches dry pointer .idle (.act (.store b data) next)
        (.act (.store i data) fun _ => (next ()).expand body)
  | absorb {b : Nat} {i : Fin NBUF} {next : Unit → Prog Logging.Act Unit}
      (at' : pointer b = some i) :
      Matches dry pointer .idle (.act (.absorb b) next)
        (.act (.absorb i) fun _ => (next ()).expand body)
  | bwrite {b : Nat} {i : Fin NBUF} {next : Unit → Prog Logging.Act Unit}
      (at' : pointer b = some i) :
      Matches dry pointer .idle (.act (.bwrite b) next)
        (.act (.holdingsleep i) (written i ((next ()).expand body)))
  | marking {b : Nat} {i : Fin NBUF} {next : Unit → Prog Logging.Act Unit}
      (at' : pointer b = some i) :
      Matches dry pointer .idle (.act (.bwrite b) next)
        (.act (.markDirty i) fun _ =>
          .act (.idleTransfer i) (transferred i ((next ()).expand body)))
  | dirty {b : Nat} {i : Fin NBUF} {next : Unit → Prog Logging.Act Unit} :
      Matches dry pointer (.writing b i) (.act (.bwrite b) next)
        (.act (.idleTransfer i) (transferred i ((next ()).expand body)))
  | writing {b : Nat} {i : Fin NBUF} {next : Unit → Prog Logging.Act Unit} :
      Matches dry pointer (.writing b i) (.act (.bwrite b) next)
        (.act (.transfer i) fun _ => (next ()).expand body)
  | brelse {b : Nat} {i : Fin NBUF} {next : Unit → Prog Logging.Act Unit}
      (at' : pointer b = some i) :
      Matches dry pointer .idle (.act (.brelse b) next)
        (.act (.holdingsleep i) (released i ((next ()).expand body)))
  | unlocking {b : Nat} {i : Fin NBUF} {next : Unit → Prog Logging.Act Unit}
      (at' : pointer b = some i) :
      Matches dry pointer .idle (.act (.brelse b) next)
        (.act (.releasesleep i) fun _ =>
          .act (.unref i) fun _ => (next ()).expand body)
  | releasing {i : Fin NBUF} {rest : Prog Logging.Act Unit} :
      Matches dry pointer (.releasing i) rest
        (.act (.unref i) fun _ => rest.expand body)

variable
    (dry : Prop)
    (quota : Finset Nat → Bool)
    (log : Logging.Log)
    (disk : Nat → Block)

/-- After a step of process `p` the invariant holds again, with one step of the array or none. -/
def Joint.Moves (g : Joint Pid) (p : Pid) (left : Prog Act Unit) (state : Cache Pid) :
    Prop :=
  ∃ g' : Joint Pid, g'.Inv quota log disk ∧ g'.cache = state ∧
    (g'.abs = g.abs ∨ (arrayUsers quota).Step g.abs g'.abs) ∧
    Matches dry (g'.cache.pointer p) (g'.phase p) (g'.abs.prog p) left ∧
    ∀ q, q ≠ p → g'.cache.pointer q = g.cache.pointer q ∧
      g'.phase q = g.phase q ∧ g'.abs.prog q = g.abs.prog q

variable {dry quota log disk} {g g' : Joint Pid} {p : Pid} {i : Fin NBUF} {b : Nat}

/-- A step that the array does not see. -/
theorem Joint.Moves.silent {left : Prog Act Unit} {new : Phase} {state : Cache Pid}
    (inv : Joint.Inv quota log disk
      { g with cache := state, phase := Function.update g.phase p new })
    (others : ∀ q, q ≠ p → state.pointer q = g.cache.pointer q)
    (left' : Matches dry (state.pointer p) new (g.abs.prog p) left) :
    g.Moves dry quota log disk p left state := by
  refine ⟨_, inv, rfl, Or.inl rfl, ?_, fun q other => ⟨others q other, ?_, rfl⟩⟩
  · simpa only [Function.update_self] using left'
  · exact Function.update_of_ne other ..

/-- The program goes on, and the buffers stay as they are. -/
theorem Joint.Moves.still {left : Prog Act Unit} (inv : g.Inv quota log disk)
    (left' : Matches dry (g.cache.pointer p) (g.phase p) (g.abs.prog p) left) :
    g.Moves dry quota log disk p left g.cache :=
  ⟨g, inv, rfl, Or.inl rfl, left', fun _ _ => ⟨rfl, rfl, rfl⟩⟩

/-- An action of the array. -/
theorem Joint.Moves.visible {β : Type} {action : Logging.Act β}
    {next : β → Prog Logging.Act Unit} {value : β} {after : Logging.State Pid}
    {left : Prog Act Unit} {phase : Pid → Phase} {state : Cache Pid}
    (inv : g.Inv quota log disk)
    (current : g.abs.prog p = .act action next)
    (effect : Logging.exec action p g.abs.shared = .done value after)
    (inv' :
      (arrayUsers quota).Reachable (Logging.initial log disk)
          ⟨after, Function.update g.abs.prog p (next value)⟩ →
        Joint.Inv quota log disk
          { cache := state
            abs := ⟨after, Function.update g.abs.prog p (next value)⟩
            phase := phase })
    (others : ∀ q, q ≠ p → state.pointer q = g.cache.pointer q ∧ phase q = g.phase q)
    (left' : Matches dry (state.pointer p) (phase p) (next value) left) :
    g.Moves dry quota log disk p left state := by
  have step : (arrayUsers quota).Step g.abs
      ⟨after, Function.update g.abs.prog p (next value)⟩ :=
    .done current effect
  refine ⟨_, inv' (inv.run.tail step), rfl, Or.inr step, ?_,
    fun q other => ⟨(others q other).1, (others q other).2, ?_⟩⟩
  · simpa only [Function.update_self] using left'
  · exact Function.update_of_ne other ..

/-- An action of the array that changes no phase. -/
theorem Joint.Moves.used {β : Type} {action : Logging.Act β}
    {next : β → Prog Logging.Act Unit} {value : β} {after : Logging.State Pid}
    {state : Cache Pid}
    (inv : g.Inv quota log disk) (idle : g.phase p = .idle)
    (current : g.abs.prog p = .act action next)
    (effect : Logging.exec action p g.abs.shared = .done value after)
    (inv' :
      (arrayUsers quota).Reachable (Logging.initial log disk)
          ⟨after, Function.update g.abs.prog p (next value)⟩ →
        Joint.Inv quota log disk
          { cache := state
            abs := ⟨after, Function.update g.abs.prog p (next value)⟩
            phase := g.phase })
    (pointer : state.pointer = g.cache.pointer) :
    g.Moves dry quota log disk p ((next value).expand body) state := by
  apply Joint.Moves.visible inv current effect inv'
  · exact fun q _ => ⟨by rw [pointer], rfl⟩
  · rw [idle]
    exact .between rfl

/-! ## `bread` -/

theorem bget_moves {next : Unit → Prog Logging.Act Unit} (inv : g.Inv quota log disk)
    (idle : g.phase p = .idle) (current : g.abs.prog p = .act (.bread b) next)
    (starved : (g.cache.bget p ROOTDEV (b + MBR_BASE)).1 = none → dry) :
    g.Moves dry quota log disk p
      (match (g.cache.bget p ROOTDEV (b + MBR_BASE)).1 with
        | none => .panic "bget: no buffers\n"
        | some i => .act (.acquiresleep i) fun _ => .act (.valid i) (filled b i (next ())))
      (g.cache.bget p ROOTDEV (b + MBR_BASE)).2 := by
  unfold Cache.bget at starved ⊢
  cases found : g.cache.find ROOTDEV (b + MBR_BASE) with
  | some i =>
      have caches : g.cache.Caches i b := by
        simpa [Cache.Caches] using List.find?_some found
      apply Joint.Moves.silent (inv.ref idle caches) fun _ _ => rfl
      rw [current]
      exact .waiting
  | none =>
      have fresh : ∀ j, ¬ g.cache.Caches j b := by
        intro j caches
        have missed := List.find?_eq_none.mp found j (inv.listed j)
        simp [caches.1, caches.2] at missed
      cases unused : g.cache.spare with
      | some i =>
          have free := List.find?_some unused
          simp only [Bool.and_eq_true, beq_iff_eq, Bool.not_eq_true'] at free
          apply Joint.Moves.silent (inv.recycle idle fresh free.1 free.2) fun _ _ => rfl
          rw [current]
          exact .waiting
      | none =>
          apply Joint.Moves.still inv
          rw [idle, current]
          refine .noBuffers (starved ?_)
          rw [found, unused]

theorem acquiresleep_moves {next : Unit → Prog Logging.Act Unit}
    (inv : g.Inv quota log disk) (at' : g.phase p = .waiting b i)
    (current : g.abs.prog p = .act (.bread b) next) (free : g.cache.lock i = none) :
    g.Moves dry quota log disk p (.act (.valid i) (filled b i (next ())))
      (g.cache.acquiresleep p i) := by
  have available : g.abs.shared.holder b = none := by
    by_contra held
    rcases Option.ne_none_iff_exists'.mp held with ⟨q, owner⟩
    rcases (inv.holder b q).mp owner with ⟨j, caches, lock⟩
    have here : g.cache.Caches i b := by
      simpa [at', Phase.Holds] using inv.phase p
    rw [inv.unique j i b caches here, free] at lock
    cases lock
  have effect : Logging.exec (.bread b) p g.abs.shared =
      .done () { g.abs.shared with
        holder := Function.update g.abs.shared.holder b (some p) } := by
    simp only [Logging.exec, available, if_true]
  apply Joint.Moves.visible inv current effect (inv.acquire at' free)
  · exact fun q other => ⟨rfl, Function.update_of_ne other ..⟩
  · rw [Function.update_self]
    exact .locked

theorem filled_moves (inv : g.Inv quota log disk) (at' : g.phase p = .locked b i) :
    g.Moves dry quota log disk p (filled b i (g.abs.prog p) (g.cache.valid i)) g.cache := by
  have here : g.cache.Caches i b ∧ g.cache.lock i = some p := by
    simpa [at', Phase.Holds] using inv.phase p
  cases valid : g.cache.valid i with
  | true =>
      apply Joint.Moves.silent
      · apply inv.advance (.ready b i)
        · rw [at']; rfl
        · rw [at']; rfl
        · rw [at']; rfl
        · rw [at']; rfl
        · exact ⟨here.1, here.2, valid⟩
      · exact fun _ _ => rfl
      · exact .ready
  | false =>
      apply Joint.Moves.silent
      · apply inv.advance (.empty b i)
        · rw [at']; rfl
        · rw [at']; rfl
        · rw [at']; rfl
        · rw [at']; rfl
        · exact ⟨here.1, here.2, valid⟩
      · exact fun _ _ => rfl
      · rw [filled_false]
        exact .empty

/-! ## `bwrite` and `brelse` -/

/-- The buffer in the variable is the one which holds the block. -/
theorem pointer_holds (inv : g.Inv quota log disk) (idle : g.phase p = .idle)
    (at' : g.cache.pointer p b = some i)
    (holder : g.abs.shared.holder b = some p) :
    g.cache.Caches i b ∧ g.cache.lock i = some p ∧ g.cache.valid i = true ∧
      g.cache.data i = g.abs.shared.view b := by
  rcases inv.held idle holder with ⟨j, pointer, held⟩
  rw [at'] at pointer
  cases pointer
  exact held

/-- What the users promise holds when they act. -/
theorem promised {β : Type} {action : Logging.Act β}
    {next : β → Prog Logging.Act Unit} (inv : g.Inv quota log disk)
    (current : g.abs.prog p = .act action next) :
    Promise action p g.abs.shared :=
  (promises_kept inv.run).obligation current

theorem transferred_moves {next : Unit → Prog Logging.Act Unit}
    (inv : g.Inv quota log disk) (at' : g.phase p = .writing b i)
    (current : g.abs.prog p = .act (.bwrite b) next) :
    g.Moves dry quota log disk p ((next ()).expand body) (g.cache.transfer i) := by
  have transferred : g.cache.pointer = (g.cache.transfer i).pointer := by
    unfold Cache.transfer
    split
    · rfl
    · rfl
  apply Joint.Moves.visible inv current rfl (inv.writeOut at')
  · intro q other
    exact ⟨by rw [transferred], Function.update_of_ne other ..⟩
  · rw [Function.update_self]
    exact .between rfl

theorem markDirty_moves {next : Unit → Prog Logging.Act Unit}
    (inv : g.Inv quota log disk) (idle : g.phase p = .idle)
    (current : g.abs.prog p = .act (.bwrite b) next)
    (at' : g.cache.pointer p b = some i) :
    g.Moves dry quota log disk p
      (.act (.idleTransfer i) (transferred i ((next ()).expand body)))
      { g.cache with dirty := Function.update g.cache.dirty i true } := by
  have holder : g.abs.shared.holder b = some p := promised inv current
  rcases pointer_holds inv idle at' holder with ⟨caches, lock, valid, _⟩
  apply Joint.Moves.silent (inv.markDirty idle caches lock valid) fun _ _ => rfl
  rw [current]
  exact .dirty

theorem releasesleep_moves {next : Unit → Prog Logging.Act Unit}
    (inv : g.Inv quota log disk) (idle : g.phase p = .idle)
    (current : g.abs.prog p = .act (.brelse b) next)
    (at' : g.cache.pointer p b = some i) :
    g.Moves dry quota log disk p (.act (.unref i) fun _ => (next ()).expand body)
      (g.cache.releasesleep p i) := by
  have promise : Promise (.brelse b) p g.abs.shared := promised inv current
  rcases pointer_holds inv idle at' promise.1 with ⟨caches, lock, _⟩
  apply Joint.Moves.visible inv current rfl
    (inv.releasesleep idle caches lock promise.2)
  · exact fun q other => ⟨rfl, Function.update_of_ne other ..⟩
  · rw [Function.update_self]
    exact .releasing

/-! ## Every action -/

/-- A process starts with the next action of the array. -/
theorem between_moves {β γ : Type} {action : Logging.Act β}
    {next : β → Prog Logging.Act Unit} {low : Act γ} {left : γ → Prog Act Unit}
    {value : γ} {state : Cache Pid} (inv : g.Inv quota log disk)
    (idle : g.phase p = .idle) (current : g.abs.prog p = .act action next)
    (same : Prog.act low left = (Prog.act action next).expand body)
    (effect : exec low p g.cache = .done value state)
    (starved : low.Starves p g.cache → dry) :
    g.Moves dry quota log disk p (left value) state := by
  cases action with
  | bread b =>
      cases same
      cases effect
      have moves := bget_moves inv idle current starved
      cases result : (g.cache.bget p ROOTDEV (b + MBR_BASE)).1 with
      | none =>
          rw [result] at moves
          exact moves
      | some i =>
          rw [result] at moves
          exact moves
  | load b =>
      cases same
      simp only [exec] at effect
      split at effect
      · cases effect
        apply Joint.Moves.still inv
        rw [idle, current]
        exact .load ‹_›
      · cases effect
  | store b data =>
      cases same
      simp only [exec] at effect
      split at effect
      · cases effect
        apply Joint.Moves.still inv
        rw [idle, current]
        exact .store ‹_›
      · cases effect
  | bwrite b =>
      cases same
      simp only [exec] at effect
      split at effect
      · cases effect
        apply Joint.Moves.still inv
        rw [idle, current]
        exact .bwrite ‹_›
      · cases effect
  | brelse b =>
      cases same
      simp only [exec] at effect
      split at effect
      · cases effect
        apply Joint.Moves.still inv
        rw [idle, current]
        exact .brelse ‹_›
      · cases effect
  | absorb b =>
      cases same
      simp only [exec] at effect
      split at effect
      · cases effect
        apply Joint.Moves.still inv
        rw [idle, current]
        exact .absorb ‹_›
      · cases effect
  | readLog =>
      cases same
      cases effect
      have same : g.cache.log = g.abs.shared.log := by rw [inv.ops]
      rw [same]
      exact Joint.Moves.used inv idle current rfl inv.look rfl
  | setHeader lh =>
      cases same
      cases effect
      rw [← inv.ops]
      exact Joint.Moves.used inv idle current rfl inv.onOps rfl
  | clearHeader =>
      cases same
      cases effect
      rw [← inv.ops]
      exact Joint.Moves.used inv idle current rfl inv.onOps rfl
  | beginOp =>
      cases same
      simp only [exec] at effect
      rw [← inv.ops] at effect
      cases began : g.abs.shared.toOps.beginOp p with
      | done result ops =>
          rw [began] at effect
          cases effect
          have effect : Logging.exec .beginOp p g.abs.shared =
              .done () { g.abs.shared with toOps := ops } := by
            simp only [Logging.exec, began, Outcome.map]
          exact Joint.Moves.used inv idle current effect inv.onOps rfl
      | again ops =>
          rw [began] at effect
          cases effect
      | blocked =>
          rw [began] at effect
          cases effect
  | endOp =>
      cases same
      cases effect
      rw [← inv.ops]
      exact Joint.Moves.used inv idle current rfl inv.onOps rfl
  | endCommit =>
      cases same
      cases effect
      rw [← inv.ops]
      exact Joint.Moves.used inv idle current rfl inv.onOps rfl

/-- One action of a process keeps the cache and the array in step. -/
theorem Matches.moves {β : Type} {action : Act β} {next : β → Prog Act Unit}
    {value : β} {state : Cache Pid} (inv : g.Inv quota log disk)
    (left : Matches dry (g.cache.pointer p) (g.phase p) (g.abs.prog p) (.act action next))
    (effect : exec action p g.cache = .done value state)
    (starved : action.Starves p g.cache → dry) :
    g.Moves dry quota log disk p (next value) state := by
  generalize at' : g.phase p = phase at left
  generalize current : g.abs.prog p = rest at left
  cases left with
  | between same =>
      cases rest with
      | ret value => cases same
      | panic message => cases same
      | act high rest => exact between_moves inv at' current same effect starved
  | waiting =>
      simp only [exec] at effect
      split at effect
      · cases effect
        exact acquiresleep_moves inv at' current ‹_›
      · cases effect
  | locked =>
      cases effect
      rw [← current]
      exact filled_moves inv at'
  | empty =>
      cases effect
      have here := inv.phase p
      rw [at'] at here
      rw [here.2.2]
      apply Joint.Moves.still inv
      rw [at', current]
      exact .reading
  | reading =>
      cases effect
      apply Joint.Moves.silent (inv.readIn at')
      · intro q _
        unfold Cache.transfer
        split
        · rfl
        · rfl
      · rw [current]
        exact .ready
  | ready =>
      cases effect
      apply Joint.Moves.silent (inv.assign at')
      · exact fun q other => Function.update_of_ne other ..
      · rw [current]
        exact .between rfl
  | load pointer =>
      cases effect
      rw [(pointer_holds inv at' pointer (promised inv current)).2.2.2]
      exact Joint.Moves.used inv at' current rfl inv.look rfl
  | store pointer =>
      cases effect
      rcases pointer_holds inv at' pointer (promised inv current) with
        ⟨caches, lock, valid, _⟩
      exact Joint.Moves.used inv at' current rfl (inv.store caches lock valid) rfl
  | absorb pointer =>
      cases effect
      rcases pointer_holds inv at' pointer (promised inv current) with
        ⟨caches, _, valid, _⟩
      exact Joint.Moves.used inv at' current rfl (inv.absorb caches valid) rfl
  | bwrite pointer =>
      cases effect
      have lock := (pointer_holds inv at' pointer (promised inv current)).2.1
      rw [decide_eq_true lock]
      apply Joint.Moves.still inv
      rw [at', current]
      exact .marking pointer
  | marking pointer =>
      cases effect
      exact markDirty_moves inv at' current pointer
  | dirty =>
      cases effect
      have here := inv.phase p
      rw [at'] at here
      rw [here.2.2.2, Bool.not_true, Bool.and_false]
      apply Joint.Moves.still inv
      rw [at', current]
      exact .writing
  | writing =>
      cases effect
      exact transferred_moves inv at' current
  | brelse pointer =>
      cases effect
      have promise : Promise (.brelse _) p g.abs.shared := promised inv current
      have lock := (pointer_holds inv at' pointer promise.1).2.1
      rw [decide_eq_true lock]
      apply Joint.Moves.still inv
      rw [at', current]
      exact .unlocking pointer
  | unlocking pointer =>
      cases effect
      exact releasesleep_moves inv at' current pointer
  | releasing =>
      cases effect
      apply Joint.Moves.silent (inv.unref at') fun _ _ => rfl
      rw [current]
      exact .between rfl

/-- Only `begin_op` goes to sleep inside an action. -/
theorem between_sleeps {β γ : Type} {action : Logging.Act β}
    {next : β → Prog Logging.Act Unit} {low : Act γ} {left : γ → Prog Act Unit}
    {state : Cache Pid} (inv : g.Inv quota log disk)
    (current : g.abs.prog p = .act action next)
    (same : Prog.act low left = (Prog.act action next).expand body)
    (effect : exec low p g.cache = .again state) :
    ∃ ops : Logging.Ops Pid, state = { g.cache with toOps := ops } ∧
      (arrayUsers quota).Step g.abs ⟨{ g.abs.shared with toOps := ops }, g.abs.prog⟩ := by
  cases action with
  | beginOp =>
      cases same
      simp only [exec, ← inv.ops] at effect
      cases began : g.abs.shared.toOps.beginOp p with
      | done result ops =>
          rw [began] at effect
          cases effect
      | again ops =>
          rw [began] at effect
          cases effect
          refine ⟨ops, rfl, .again current ?_⟩
          simp only [arrayUsers, Logging.exec, began, Outcome.map]
      | blocked =>
          rw [began] at effect
          cases effect
  | bread b =>
      cases same
      cases effect
  | load b =>
      cases same
      simp only [exec] at effect
      split at effect <;> cases effect
  | store b data =>
      cases same
      simp only [exec] at effect
      split at effect <;> cases effect
  | bwrite b =>
      cases same
      simp only [exec] at effect
      split at effect <;> cases effect
  | brelse b =>
      cases same
      simp only [exec] at effect
      split at effect <;> cases effect
  | absorb b =>
      cases same
      simp only [exec] at effect
      split at effect <;> cases effect
  | _ =>
      cases same
      cases effect

theorem Matches.sleeps {β : Type} {action : Act β} {next : β → Prog Act Unit}
    {state : Cache Pid} (inv : g.Inv quota log disk)
    (left : Matches dry (g.cache.pointer p) (g.phase p) (g.abs.prog p) (.act action next))
    (effect : exec action p g.cache = .again state) :
    ∃ ops : Logging.Ops Pid, state = { g.cache with toOps := ops } ∧
      (arrayUsers quota).Step g.abs ⟨{ g.abs.shared with toOps := ops }, g.abs.prog⟩ := by
  generalize g.phase p = phase at left
  generalize current : g.abs.prog p = rest at left
  cases left with
  | between same =>
      cases rest with
      | ret value => cases same
      | panic message => cases same
      | act high rest => exact between_sleeps inv current same effect
  | waiting =>
      simp only [exec] at effect
      split at effect <;> cases effect
  | _ => cases effect

/-! ## Runs -/

/-- The ghost state explains what every process is doing. -/
def Joint.Explains (dry : Prop) (quota : Finset Nat → Bool) (log : Logging.Log)
    (disk : Nat → Block) (g : Joint Pid) (config : Config Act Pid (Cache Pid)) : Prop :=
  g.Inv quota log disk ∧ g.cache = config.shared ∧
    ∀ p, Matches dry (g.cache.pointer p) (g.phase p) (g.abs.prog p) (config.prog p)

/-- A call that is permitted on the cache is permitted on the array. -/
theorem Use.permitted_mono {holds holds' : Nat → Bool} {op : Option (Finset Nat)}
    (more : ∀ b, holds b = true → holds' b = true) {use : Use}
    (permitted : use.permitted quota holds op = true) :
    use.permitted quota holds' op = true := by
  cases use with
  | beginOp => exact permitted
  | endOp => exact permitted
  | bread b => rfl
  | load b => exact more b permitted
  | write b data =>
      simp only [Use.permitted, Bool.and_eq_true] at permitted ⊢
      exact ⟨more b permitted.1, permitted.2⟩
  | writeThrough b data => exact more b permitted
  | brelse b => exact more b permitted

theorem Joint.Inv.holds (inv : g.Inv quota log disk)
    (held : g.cache.holds p b = true) : g.abs.shared.holder b = some p := by
  rcases (Option.any_eq_true _ _).mp held with ⟨i, _, lock⟩
  simp only [Bool.and_eq_true, decide_eq_true_eq] at lock
  exact (inv.holder b p).mpr ⟨i, lock.2, lock.1⟩

/-- A program on the cache that has ended has ended on the array. -/
theorem Matches.ended {pointer : Nat → Option (Fin NBUF)} {phase : Phase}
    {rest : Prog Logging.Act Unit} (left : Matches dry pointer phase rest (.ret ())) :
    phase = .idle ∧ rest = .ret () := by
  cases left with
  | between same =>
      cases rest with
      | ret value => exact ⟨rfl, rfl⟩
      | panic message => cases same
      | act action next => cases action <;> cases same

/-- A move of one process leaves the programs of the others alone. -/
theorem Joint.Moves.explains {config : Config Act Pid (Cache Pid)}
    {left : Prog Act Unit} {state : Cache Pid}
    (explains : g.Explains dry quota log disk config)
    (moves : g.Moves dry quota log disk p left state) :
    ∃ g' : Joint Pid, (g'.abs = g.abs ∨ (arrayUsers quota).Step g.abs g'.abs) ∧
      g'.Explains dry quota log disk ⟨state, Function.update config.prog p left⟩ := by
  rcases moves with ⟨g', inv, cache, step, mine, others⟩
  refine ⟨g', step, inv, cache, fun q => ?_⟩
  by_cases same : q = p
  · subst same
    simpa only [Function.update_self] using mine
  · rcases others q same with ⟨pointer, phase, prog⟩
    simpa only [pointer, phase, prog, Function.update_of_ne same] using explains.2.2 q

theorem Joint.Explains.start {config : Config Act Pid (Cache Pid)}
    {program : Prog Act Unit} (explains : g.Explains dry quota log disk config)
    (idle : config.prog p = .ret ())
    (permitted : (cacheUsers quota).task config.shared p program) :
    ∃ g' : Joint Pid, (g'.abs = g.abs ∨ (arrayUsers quota).Step g.abs g'.abs) ∧
      g'.Explains dry quota log disk
        ⟨config.shared, Function.update config.prog p program⟩ := by
  rcases explains with ⟨inv, cache, left⟩
  have mine := left p
  rw [idle] at mine
  rcases mine.ended with ⟨phase, rest⟩
  rcases permitted with ⟨use, permitted, rfl⟩
  rw [← cache, ← inv.ops] at permitted
  have permitted' := Use.permitted_mono
    (fun b held => decide_eq_true (inv.holds held)) permitted
  have started : (arrayUsers quota).Step g.abs
      ⟨g.abs.shared, Function.update g.abs.prog p use.program⟩ :=
    .start rest ⟨use, permitted', rfl⟩
  refine ⟨_, Or.inr started, inv.look (inv.run.tail started), cache, fun q => ?_⟩
  by_cases same : q = p
  · subst same
    simp only [Function.update_self, phase]
    exact .between rfl
  · simpa only [Function.update_of_ne same] using left q

theorem Joint.Explains.done {config : Config Act Pid (Cache Pid)} {β : Type}
    {action : Act β} {next : β → Prog Act Unit} {value : β} {state : Cache Pid}
    (explains : g.Explains dry quota log disk config)
    (current : config.prog p = .act action next)
    (effect : exec action p config.shared = .done value state)
    (starved : action.Starves p config.shared → dry) :
    ∃ g' : Joint Pid, (g'.abs = g.abs ∨ (arrayUsers quota).Step g.abs g'.abs) ∧
      g'.Explains dry quota log disk
        ⟨state, Function.update config.prog p (next value)⟩ := by
  rcases config with ⟨shared, prog⟩
  rcases explains with ⟨inv, rfl, left⟩
  have mine := left p
  rw [current] at mine
  exact Joint.Moves.explains ⟨inv, rfl, left⟩ (mine.moves inv effect starved)

theorem Joint.Explains.again {config : Config Act Pid (Cache Pid)} {β : Type}
    {action : Act β} {next : β → Prog Act Unit} {state : Cache Pid}
    (explains : g.Explains dry quota log disk config)
    (current : config.prog p = .act action next)
    (effect : exec action p config.shared = .again state) :
    ∃ g' : Joint Pid, (g'.abs = g.abs ∨ (arrayUsers quota).Step g.abs g'.abs) ∧
      g'.Explains dry quota log disk ⟨state, config.prog⟩ := by
  rcases config with ⟨shared, prog⟩
  rcases explains with ⟨inv, rfl, left⟩
  have mine := left p
  rw [current] at mine
  rcases mine.sleeps inv effect with ⟨ops, rfl, step⟩
  exact ⟨_, Or.inr step, inv.onOps (inv.run.tail step), rfl, left⟩

/-- Every step on the cache is a step on the array or none. -/
theorem Joint.Explains.step {config config' : Config Act Pid (Cache Pid)}
    (explains : g.Explains True quota log disk config)
    (step : (cacheUsers quota).Step config config') :
    ∃ g' : Joint Pid, (g'.abs = g.abs ∨ (arrayUsers quota).Step g.abs g'.abs) ∧
      g'.Explains True quota log disk config' := by
  cases step with
  | start idle permitted => exact explains.start idle permitted
  | done current effect => exact explains.done current effect fun _ => trivial
  | again current effect => exact explains.again current effect

/-! ## The start -/

/-- The cache as `binit` leaves it, with the log as `initlog` does. -/
def booted (log : Logging.Log) (disk : Nat → Block) : Config Act Pid (Cache Pid) where
  shared :=
    { toOps := (Logging.initial log disk).shared.toOps
      valid := fun _ => false
      dirty := fun _ => false
      dev := fun _ => 0
      blockno := fun _ => 0
      refcnt := fun _ => 0
      data := fun _ _ => 0
      lock := fun _ => none
      mru := (List.finRange NBUF).reverse
      disk := disk
      pointer := fun _ _ => none
      waiting := fun _ => none
      releasing := fun _ => none
      asked := fun _ => ∅
      unhomed := ∅ }
  prog _ := .ret ()

/-- The blocks of the file system on a disk with this content. -/
def partition (disk : Nat → Block) (b : Nat) : Block :=
  disk (b + MBR_BASE)

/-- Nothing is cached, and the array is what the disk holds. -/
def booting (log : Logging.Log) (disk : Nat → Block) : Joint Pid where
  cache := (booted log disk).shared
  abs := Logging.initial log (partition disk)
  phase _ := .idle

theorem booting_explains (dry : Prop) (quota : Finset Nat → Bool) (log : Logging.Log)
    (disk : Nat → Block) :
    (booting log disk : Joint Pid).Explains dry quota log (partition disk)
      (booted log disk) := by
  have empty : ∀ (i : Fin NBUF) b, ¬ (booting log disk : Joint Pid).cache.Caches i b := by
    rintro i b ⟨root, _⟩
    cases root
  refine ⟨?_, rfl, fun p => .between rfl⟩
  exact
    { run := .refl
      ops := rfl
      listed := fun i => List.mem_reverse.mpr (List.mem_finRange i)
      unused := fun _ _ => ⟨rfl, rfl, rfl⟩
      number := by
        intro i root
        cases root
      unique := fun i _ b caches => absurd caches (empty i b)
      refcnt := by
        intro i
        simp [booting, booted, Cache.references, holders, countAt]
      waiting := fun _ => rfl
      releasing := fun _ => rfl
      phase := fun _ => trivial
      holder := by
        intro b p
        constructor
        · intro held
          cases held
        · rintro ⟨i, caches, _⟩
          exact absurd caches (empty i b)
      pointer := nofun
      valid := nofun
      dirtyValid := nofun
      view := fun i b caches => absurd caches (empty i b)
      uncached := fun _ _ => rfl
      disk := fun _ => rfl
      pinned := nofun
      dirty := nofun
      settled := fun _ _ => Or.inr rfl
      served := by
        intro p x
        refine iff_of_false (Finset.notMem_empty x) ?_
        rintro ⟨i, root, _⟩
        cases root
      unhomed := by
        intro x
        refine iff_of_false (Finset.notMem_empty x) ?_
        rintro ⟨b, dirty, _⟩
        cases dirty }

end PiKernel.Bio
