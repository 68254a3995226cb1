import PiKernel.Conc.Tally
import PiKernel.Fs.Accounts

/-!
# Operations in runs

A process has called `begin_op` as often as `end_op`, and once more while it is in an
operation.  So no process ever has two operations open, and a call that returns has closed
what it has opened.
-/

namespace PiKernel.Fs

open PiKernel.Conc

variable
    {Pid : Type}

/-- How often an action is `begin_op`, and how often it is `end_op`. -/
def brackets : {β : Type} → Low Pid β → Nat × Nat
  | _, .right .beginOp => (1, 0)
  | _, .right .endOp => (0, 1)
  | _, _ => 0

/-- The number of operations that a process has open. -/
def openOps (s : Blocks Pid) (p : Pid) : Nat := if (s.current p).isSome then 1 else 0

variable [DecidableEq Pid]

section Actions

variable
    {s t : Blocks Pid}
    {p q : Pid}
    {β : Type}
    {action : Low Pid β}
    {value : β}

/-- What an action does to the operation of its own process, and of any other. -/
theorem openOps_done {v : Held} (effect : Blocks.exec action q s = .done value t)
    (allowed : Allowed action v) (op : v.op = (s.current q).isSome) (p : Pid) :
    openOps t p + (if q = p then brackets action else 0).2 =
      openOps s p + (if q = p then brackets action else 0).1 := by
  have same (current : t.current = s.current) (none : brackets action = 0) :
      openOps t p + (if q = p then brackets action else 0).2 =
        openOps s p + (if q = p then brackets action else 0).1 := by
    rw [none, ite_self, openOps, openOps, current]
    rfl
  cases action with
  | left action =>
      simp only [Blocks.exec] at effect
      cases step : Tables.exec action q s.toTables with
      | done value' tables =>
          rw [step] at effect
          cases effect
          exact same rfl rfl
      | again tables => exact absurd step (exec_ne_again action s.toTables tables)
      | blocked =>
          rw [step] at effect
          cases effect
  | right action =>
      simp only [Blocks.exec] at effect
      cases action with
      | bread b =>
          simp only [BlockAct.exec] at effect
          split at effect <;> cases effect
          exact same rfl rfl
      | beginOp =>
          simp only [BlockAct.exec, Logging.Ops.beginOp] at effect
          repeat' split at effect
          all_goals cases effect
          have closed : s.current q = none := by simpa [op] using allowed.1
          by_cases mine : q = p
          · subst mine
            simp [openOps, brackets, closed]
          · simp [openOps, mine, Function.update_of_ne (Ne.symm mine)]
      | endOp =>
          simp only [BlockAct.exec] at effect
          cases effect
          have open' : (s.current q).isSome = true := by simpa [op] using allowed.1
          have current : (s.toOps.endOp q).2.current = Function.update s.current q none := by
            unfold Logging.Ops.endOp
            dsimp only
            repeat' split
            all_goals rfl
          by_cases mine : q = p
          · subst mine
            simp [openOps, brackets, current, open']
          · simp [openOps, mine, current, Function.update_of_ne (Ne.symm mine)]
      | absorb b =>
          cases effect
          by_cases mine : q = p
          · subst mine
            simp [openOps, brackets, Logging.Ops.absorb]
          · simp [openOps, mine, Logging.Ops.absorb, Function.update_of_ne (Ne.symm mine)]
      | load b | store b data | brelse b | readLog | commit | endCommit | inode i
      | setInode i d =>
          cases effect
          exact same rfl rfl

theorem openOps_again (effect : Blocks.exec action q s = .again t) (p : Pid) :
    openOps t p = openOps s p := by
  cases action with
  | left action =>
      rcases Outcome.map_again effect with ⟨tables, step⟩
      exact absurd step (exec_ne_again action s.toTables tables)
  | right action =>
      simp only [Blocks.exec] at effect
      cases action with
      | beginOp =>
          simp only [BlockAct.exec, Logging.Ops.beginOp] at effect
          repeat' split at effect
          all_goals cases effect
          rfl
      | bread b =>
          simp only [BlockAct.exec] at effect
          split at effect <;> cases effect
      | _ => cases effect

end Actions

/-! ## Runs -/

variable [Fintype Pid]
    {lost : Fin NINODE → Nat}
    {flost : Fin NFILE → Nat}
    {devsw : Devsw}
    {sb : Superblock}
    {initial config : Config (Low Pid) Pid (Blocks Pid)}
    {p : Pid}
    {counts : Nat × Nat}

omit [DecidableEq Pid] in
theorem Still.closed (still : Still lost flost initial) (p : Pid) :
    openOps initial.shared p = 0 := by
  cases born : initial.shared.born p with
  | false => simp [openOps, still.accounted.ops p born]
  | true =>
      have resting := still.resting p _ (if_pos born)
      have op : (initial.shared.current p).isSome = false := resting.op
      simp [openOps, op]

/-- An open operation is one `begin_op` more than there are calls of `end_op`. -/
theorem Still.tally (still : Still lost flost initial)
    (run : (blocksSystem sb (calls devsw sb)).Tally brackets p initial config counts) :
    openOps config.shared p + counts.2 = counts.1 := by
  induction run with
  | refl => exact still.closed p
  | start _ _ _ ih => exact ih
  | @done config total q β action next value state run current effect ih =>
      rcases (still.reaches run.reachable).obligation current with ⟨v, viewed, allowed⟩
      rcases held_some viewed with ⟨_, mine⟩
      have op : v.op = (config.shared.current q).isSome := by rw [mine]
      have step := openOps_done effect allowed op p
      dsimp only
      split
      · next same =>
          rw [if_pos same] at step
          rw [Prod.fst_add, Prod.snd_add]
          omega
      · next other =>
          rw [if_neg other] at step
          have kept : openOps state p = openOps config.shared p := step
          omega
  | again _ _ effect ih => rw [openOps_again effect p, ih]

/--
In every run a process has called `begin_op` as often as `end_op`, or once more: then it is
inside an operation.  When a call returns both have been called equally often, and the
process holds no lock and no buffer; on the way it releases what it holds itself.
-/
theorem calls_balanced (still : Still lost flost initial)
    (run : (blocksSystem sb (calls devsw sb)).Tally brackets p initial config counts) :
    Orderly config p ∧ counts.2 ≤ counts.1 ∧ counts.1 ≤ counts.2 + 1 ∧
      (config.prog p = .ret () → counts.1 = counts.2) := by
  have tally := still.tally run
  have explains := still.reaches run.reachable
  have few : openOps config.shared p ≤ 1 := by
    unfold openOps
    split
    · exact Nat.le_refl 1
    · exact Nat.zero_le 1
  refine ⟨?_, by omega, by omega, ?_⟩
  · constructor
    · exact fun idle v viewed => explains.resting idle viewed
    · exact fun action next current => explains.obligation current
    · exact fun message current => explains.panic current
  · intro idle
    have closed : openOps config.shared p = 0 := by
      cases born : config.shared.born p with
      | false => simp [openOps, explains.inv.ops p born]
      | true =>
          have resting := explains.resting idle (if_pos born)
          have op : (config.shared.current p).isSome = false := resting.op
          simp [openOps, op]
    omega

/-! ## One call -/

/-- The first process calls `chdir` with a path that cannot be read. -/
theorem chdir_tally : ∃ config,
    (blocksSystem smallVolume (calls noDevsw smallVolume)).Tally brackets 0
      ⟨firstProcess, fun _ => .ret ()⟩ config (1, 1) ∧ config.prog 0 = .ret () := by
  let sys : System (Low (Fin 2)) (Fin 2) (Blocks (Fin 2)) :=
    blocksSystem smallVolume (calls noDevsw smallVolume)
  have permitted : sys.task firstProcess 0
      (((Call.chdir none).program noDevsw smallVolume).expand (body smallVolume)) :=
    ⟨_, ⟨rfl, rfl, .chdir none, rfl⟩, rfl⟩
  have started : sys.Tally brackets 0 ⟨firstProcess, fun _ => .ret ()⟩ _ _ :=
    .start .refl rfl permitted
  have begun := System.Tally.done started (Function.update_self ..) rfl
  have ended := System.Tally.done begun (Function.update_self ..) rfl
  have written := System.Tally.done ended (Function.update_self ..) rfl
  have committed := System.Tally.done written (Function.update_self ..) rfl
  exact ⟨_, committed, rfl⟩

theorem calls_balanced_chdir : ∃ config counts,
    (blocksSystem smallVolume (calls noDevsw smallVolume)).Tally brackets 0
        ⟨firstProcess, fun _ => .ret ()⟩ config counts ∧
      config.prog 0 = .ret () ∧ Orderly config 0 ∧ counts.1 = 1 ∧ counts.1 = counts.2 := by
  rcases chdir_tally with ⟨config, tally, idle⟩
  have balanced := calls_balanced still_firstProcess tally
  exact ⟨config, _, tally, idle, balanced.1, rfl, balanced.2.2.2 idle⟩

end PiKernel.Fs
