import PiKernel.Ptable.Descent

/-!
# Orphans

`user_idle_init` sets `initproc` as `user_init` does, and is called after it.  So `exit`
passes children on to an idle process, which jumps to itself and never waits: the slot of
a process that was passed on is in use for good.
-/

namespace PiKernel.Ptable

open PiKernel.Conc
open PiKernel.Trap (ProcState)

variable
    {slots cpus : Nat}
    {m m' : Machine slots cpus}
    {phase : Fin cpus → Phase slots}
    {c : Fin cpus}
    {k : Code slots}
    {p : Fin slots}

/-! ## Programs that loop -/

/-- The statements of `fork`, `exit` and `wait` before they return. -/
def Stmt.ofCall : Stmt slots → Bool
  | .checkInit | .exit | .wait | .proc_alloc | .copyuvm _ | .setParent _ => true
  | _ => false

/-- The code is not that of `fork`, `exit` or `wait`. -/
def Code.CallFree (k : Code slots) : Prop := ∀ stmt ∈ k, stmt.ofCall = false

theorem Code.CallFree.append {k l : Code slots} (first : Code.CallFree k)
    (second : Code.CallFree l) : Code.CallFree (k ++ l) := by
  intro stmt mem
  rcases List.mem_append.mp mem with mem | mem
  · exact first stmt mem
  · exact second stmt mem

theorem callFree_sleep (chan : Option (Chan slots)) (lk : Lock) :
    Code.CallFree (Code.sleep chan lk : Code slots) := by
  unfold Code.sleep
  split <;> simp [Code.CallFree, Stmt.ofCall]

theorem callFree_call (function : Call slots) : Code.CallFree function.code := by
  cases function with
  | sleep chan n => exact callFree_sleep chan _
  | _ =>
      simp [Call.code, Code.wakeup, Code.acquiresleep, Code.releasesleep, Code.CallFree,
        Stmt.ofCall]

/-- A program that loops makes no system call. -/
theorem Next.callFree {stmt : Stmt slots} {rest : Code slots} {me : Fin slots}
    (next : Next m me stmt rest k) (loop : m.program me = .loop)
    (free : Code.CallFree (stmt :: rest)) : Code.CallFree k := by
  have here : stmt.ofCall = false := free stmt List.mem_cons_self
  have later : Code.CallFree rest := fun s mem => free s (List.mem_cons_of_mem _ mem)
  cases next with
  | tail stmt checked rest => exact later
  | panic stmt message rest =>
      intro s mem
      rcases List.mem_cons.mp mem with rfl | mem
      · rfl
      · exact free s mem
  | trap entry allowed rest =>
      rw [loop] at allowed
      refine Code.CallFree.append ?_ free
      cases entry with
      | timer =>
          simp [Entry.code, Code.timer, Code.drop_priority, Code.yield, Code.CallFree, Stmt.ofCall]
      | other => simp [Entry.code, Code.CallFree, Stmt.ofCall]
      | yield | fork | exit | wait => cases allowed
  | call function rest owner => exact (callFree_call function).append free
  | sleepInWait childless rest | waitEnds rest | allocFails rest | noStack rest
  | allocated q unused rest | copied q rest => cases here
  | first rest =>
      refine Code.CallFree.append ?_ later
      simp [Code.firstProcess, Code.raise_priority, Code.set_cpus_allowed, Code.CallFree,
        Stmt.ofCall]
  | sleepOnLock l locked rest => exact (callFree_sleep _ _).append free
  | lockTaken l rest =>
      intro s mem
      rcases List.mem_cons.mp mem with rfl | mem
      · rfl
      · exact later s mem

/-- `fork` copies the program. -/
theorem Effect.program (effect : Effect c m m') (p : Fin slots) :
    m'.program p = m.program p ∨
      (m.proc p).state = .UNUSED ∧
        ∃ me k, m.current c = some me ∧ m.code c = .proc_alloc :: k ∧
          m'.program p = m.program me := by
  cases effect with
  | alloc me q page k here code unused _ _ _ _ program _ _ =>
      by_cases same : p = q
      · subst same
        exact Or.inr ⟨unused, me, k, here, code, by rw [program, Function.update_self]⟩
      · exact Or.inl (by rw [program, Function.update_of_ne same])
  | quiet _ kept _ | born _ _ _ _ _ _ kept _ | ready _ _ _ _ kept _ | forked _ _ _ _ _ _ kept _
  | run _ _ _ kept _ | leave _ _ _ _ _ _ _ _ _ kept _ | wakeup _ _ _ _ kept _
  | exiting _ _ _ _ _ _ _ kept _ | exit _ _ _ _ _ kept _ | noChild _ _ _ _ _ _ kept _ =>
      exact Or.inl (congrFun kept.program p)
  | discard _ _ _ _ _ _ program _ _ => exact Or.inl (congrFun program p)
  | reap _ _ _ _ _ _ _ _ _ program _ _ => exact Or.inl (congrFun program p)

/-- No program that loops calls anything. -/
def Machine.Looping (m : Machine slots cpus) : Prop :=
  ∀ p k, m.program p = .loop → m.Continues p k → Code.CallFree k

namespace Machine.Looping

/-- What executes a call does not loop. -/
theorem calls {stmt : Stmt slots} (looping : m.Looping) (here : m.current c = some p)
    (code : m.code c = stmt :: k) (call : stmt.ofCall = true)
    (process : stmt.ofScheduler = false) : m.program p ≠ .loop := by
  intro loop
  have free := looping p _ loop (Or.inr ⟨c, executes_cons here code process⟩)
  have none := free stmt List.mem_cons_self
  rw [call] at none
  cases none

theorem program_step (looping : m.Looping) (effect : Effect c m m')
    (loop : m'.program p = .loop) : m.program p = .loop := by
  rcases effect.program p with same | ⟨_, me, k, here, code, copied⟩
  · rw [← same, loop]
  · exact absurd (copied.symm.trans loop) (looping.calls here code rfl rfl)

theorem step {a : Action slots} (looping : m.Looping) (ordered : m.Ordered phase)
    (step : exec c a m = some m') : m'.Looping := by
  intro p k loop there
  have before := looping.program_step (exec_effect step) loop
  rcases exec_continues step ordered there with
    same | rfl | ⟨stmt, rest, executes, next⟩ | ⟨rfl, _⟩
  · exact looping p k before same
  · simp [Code.CallFree]
  · exact next.callFree before (looping p _ before (Or.inr ⟨c, executes⟩))
  · simp [Code.forkret, Code.CallFree, Stmt.ofCall]

end Machine.Looping

theorem Machine.Fresh.looping (fresh : m.Fresh)
    (saved : ∀ p, (m.proc p).state = .UNUSED → m.context p = none) : m.Looping := by
  intro p k _ there
  rw [(fresh.continues saved there).1]
  simp [Code.forkret, Code.CallFree, Stmt.ofCall]

theorem Reachable.looping (reachable : Reachable m) : m.Looping := by
  induction reachable with
  | boot page idle booted => exact (main_fresh booted).1.looping (saved_of_main booted)
  | step before next ih =>
      cases next with
      | exec c a effect =>
          rcases before.scheduled with ⟨phase, ordered⟩
          exact ih.step ordered effect

/-! ## The process that adopts -/

/-- The process that adopts does not wait. -/
structure Machine.Idles (m : Machine slots cpus) : Prop where
  initproc : ∃ i, m.initproc = some i ∧ m.pid i = 4 ∧ m.program i = .loop
  adopted : ∀ a n, .adopted a n ∈ m.family → a = 4
  exited : .exited 4 ∉ m.family
  waited : ∀ n, .waited 4 n ∉ m.family

namespace Machine.Idles

/-- The process is another one. -/
theorem pid_ne (idles : m.Idles) (kin : m.Kin) (numbered : m.Numbered)
    (used : (m.proc p).state ≠ .UNUSED) (other : some p ≠ m.initproc) : m.pid p ≠ 4 := by
  rcases idles.initproc with ⟨i, same, pid, _⟩
  rcases kin.initproc with ⟨i', same', alive⟩
  cases same.symm.trans same'
  intro equal
  have mine := numbered.distinct p i used alive.used (equal.trans pid.symm)
  exact other (mine ▸ same.symm)

theorem initproc_step (idles : m.Idles) (kin : m.Kin) (kin' : m'.Kin)
    (effect : Effect c m m') : ∃ i, m'.initproc = some i ∧ m'.pid i = 4 ∧ m'.program i = .loop := by
  rcases idles.initproc with ⟨i, same, pid, loop⟩
  rcases kin.initproc with ⟨i', same', alive⟩
  cases same.symm.trans same'
  have after := effect.initproc.trans same
  rcases kin'.initproc with ⟨i'', same'', alive'⟩
  cases after.symm.trans same''
  refine ⟨i, after, (effect.pid_kept alive.used alive'.used).trans pid, ?_⟩
  rcases effect.program i with kept | ⟨unused, _⟩
  · rw [kept, loop]
  · exact absurd unused alive.used

/-- What a step adds to the history. -/
theorem family_step (idles : m.Idles) (looping : m.Looping) (kin : m.Kin)
    (ordered : m.Ordered phase) (numbered : m.Numbered) (effect : Effect c m m') :
    (∀ a n, .adopted a n ∈ m'.family → a = 4) ∧ .exited 4 ∉ m'.family ∧
      ∀ n, .waited 4 n ∉ m'.family := by
  have still (family : m'.family = m.family) :
      (∀ a n, .adopted a n ∈ m'.family → a = 4) ∧ .exited 4 ∉ m'.family ∧
        ∀ n, .waited 4 n ∉ m'.family := by
    rw [family]
    exact ⟨idles.adopted, idles.exited, idles.waited⟩
  have note {event : Event slots} (family : m'.family = event :: m.family)
      (adopts : ∀ a n, event ≠ .adopted a n) (exits : event ≠ .exited 4)
      (waits : ∀ n, event ≠ .waited 4 n) :
      (∀ a n, .adopted a n ∈ m'.family → a = 4) ∧ .exited 4 ∉ m'.family ∧
        ∀ n, .waited 4 n ∉ m'.family := by
    simp only [family, List.mem_cons, not_or]
    refine ⟨?_, ⟨exits.symm, idles.exited⟩, fun n => ⟨(waits n).symm, idles.waited n⟩⟩
    rintro a n (same | before)
    · exact absurd same.symm (adopts a n)
    · exact idles.adopted a n before
  cases effect with
  | quiet _ _ family | ready _ _ _ _ _ family | run _ _ _ _ family
  | leave _ _ _ _ _ _ _ _ _ _ family | wakeup _ _ _ _ _ family
  | discard _ _ _ _ _ _ _ _ family => exact still family
  | alloc _ _ _ _ _ _ _ _ _ _ _ _ _ family => exact still family
  | born me p k here code _ _ family | forked me p k here code _ _ family
  | noChild me k here code _ _ _ family => exact note family (by simp) (by simp) (by simp)
  | exiting me k here code _ other _ _ family =>
      have differs := idles.pid_ne kin numbered (ordered.used here) other
      exact note family (by simp) (by simp [differs]) (by simp)
  | exit me k here code proc kept family =>
      rcases idles.initproc with ⟨i, same, pid, _⟩
      rw [adoptions_eq same, pid] at family
      simp only [family, adopts, List.mem_append, List.mem_map, not_or]
      refine ⟨?_, ⟨?_, idles.exited⟩, fun n => ⟨?_, idles.waited n⟩⟩
      · rintro a n (⟨_, _, event⟩ | before)
        · exact (Event.adopted.inj event).1.symm
        · exact idles.adopted a n before
      · rintro ⟨_, _, never⟩
        cases never
      · rintro ⟨_, _, never⟩
        cases never
  | reap me p k here code found proc _ _ _ _ family =>
      have differs : m.pid me ≠ 4 := by
        apply idles.pid_ne kin numbered (ordered.used here)
        intro same
        rcases idles.initproc with ⟨i, initproc, _, loop⟩
        cases same.trans initproc
        exact looping.calls here code rfl rfl loop
      exact note family (by simp) (by simp) (by simp [differs])

theorem step {a : Action slots} (idles : m.Idles) (looping : m.Looping) (kin : m.Kin)
    (ordered : m.Ordered phase) (numbered : m.Numbered) (step : exec c a m = some m') :
    m'.Idles := by
  have effect := exec_effect step
  rcases idles.family_step looping kin ordered numbered effect with ⟨adopted, exited, waited⟩
  exact
    { initproc := idles.initproc_step kin (kin.step ordered step) effect
      adopted := adopted
      exited := exited
      waited := waited }

end Machine.Idles

theorem Machine.Fresh.idles (fresh : m.Fresh) (nextpid : m.nextpid = 5)
    (init : ∃ i, m.initproc = some i) : m.Idles := by
  rcases init with ⟨i, same⟩
  rcases fresh.initproc i same with ⟨state, pid⟩
  have pid : m.pid i = 4 := by omega
  constructor
  · refine ⟨i, same, pid, ?_⟩
    have other := (fresh.new state).program
    rw [pid] at other
    cases program : m.program i with
    | loop => rfl
    | any =>
        rw [program] at other
        cases other.mp rfl
  · intro a n mem
    rw [fresh.family] at mem
    cases mem
  · rw [fresh.family]
    simp
  · rw [fresh.family]
    simp

theorem Reachable.idles (reachable : Reachable m) : m.Idles := by
  induction reachable with
  | boot page idle booted =>
      rcases main_fresh booted with ⟨fresh, nextpid, init⟩
      exact fresh.idles nextpid init
  | step before next ih =>
      cases next with
      | exec c a effect =>
          rcases before.scheduled with ⟨phase, ordered⟩
          exact ih.step before.looping before.kin ordered before.numbered effect

/-! ## Orphans are kept -/

/-- If one process adopts all orphans, and does not wait, it is their parent for good. -/
theorem Lawful.kept {events : List (Event slots)} {i a n : Nat} (lawful : Lawful events)
    (adopts : ∀ a n, .adopted a n ∈ events → a = i) (waited : ∀ n, .waited i n ∉ events)
    (adopted : .adopted a n ∈ events) : parentOf events n = some i ∧ ¬ Waited events n := by
  induction events with
  | nil => cases adopted
  | cons event events ih =>
      have admissible := lawful [] event events rfl
      have tail : Lawful events := fun later event' before whole =>
        lawful (event :: later) event' before (congrArg _ whole)
      rcases List.mem_cons.mp adopted with rfl | before
      · have mine := adopts a n List.mem_cons_self
        subst mine
        refine ⟨parentOf_here (if_pos rfl), ?_⟩
        cases admissible with
        | adopted _ b _ child exited kept =>
            exact fun again => kept ((waited_cons (by simp)).mp again)
      · rcases ih tail (fun a n mem => adopts a n (List.mem_cons_of_mem _ mem))
          (fun n mem => waited n (List.mem_cons_of_mem _ mem)) before with ⟨parent, kept⟩
        cases admissible with
        | born a' n' fresh =>
            have other : n' ≠ n := by
              rintro rfl
              rw [fresh] at parent
              cases parent
            refine ⟨(parentOf_cons (gives_other other).1).trans parent, ?_⟩
            exact fun again => kept ((waited_cons (by simp)).mp again)
        | adopted a' b n' child exited kept' =>
            have mine := adopts a' n' List.mem_cons_self
            subst mine
            refine ⟨?_, fun again => kept ((waited_cons (by simp)).mp again)⟩
            by_cases same : n' = n
            · exact parentOf_here (if_pos same)
            · exact (parentOf_cons (gives_other same).2).trans parent
        | waited a' n' child exited once =>
            have other : n' ≠ n := by
              rintro rfl
              rw [parent] at child
              cases child
              exact waited n' List.mem_cons_self
            refine ⟨(parentOf_cons rfl).trans parent, ?_⟩
            exact fun again => kept ((waited_cons (by simp [other])).mp again)
        | forked a' n' child | exited n' | noChild a' childless =>
            refine ⟨(parentOf_cons rfl).trans parent, ?_⟩
            exact fun again => kept ((waited_cons (by simp)).mp again)

/--
In every run the process that adopts is the last idle process, with pid 4, whose program
jumps to itself.  It does not exit, and a process that has been passed on to it is never
waited for: its slot stays in use, with the idle process as its parent.
-/
theorem orphans_kept (reachable : Reachable m) {a n : Nat}
    (adopted : .adopted a n ∈ m.family) :
    (∃ i, m.initproc = some i ∧ m.pid i = a ∧ a = 4 ∧ m.program i = .loop) ∧
      .exited a ∉ m.family ∧ ¬ Waited m.family n ∧
        ∃ p, m.pid p = n ∧ (m.proc p).parent = m.initproc ∧ (m.proc p).state ≠ .UNUSED := by
  have idles := reachable.idles
  have history := reachable.descent.history
  have kin := reachable.kin
  rcases idles.initproc with ⟨i, same, pid, loop⟩
  have mine := idles.adopted a n adopted
  subst mine
  rcases history.lawful.kept idles.adopted idles.waited adopted with ⟨parent, kept⟩
  refine ⟨⟨i, same, pid, rfl, loop⟩, idles.exited, kept, ?_⟩
  rcases history.known n 4 parent with waited | ⟨p, q, mine, other, child⟩
  · exact absurd waited kept
  · rcases kin.parent p q child with ⟨used, alive⟩
    rcases kin.initproc with ⟨i', same', alive'⟩
    cases same.symm.trans same'
    have adopter := reachable.numbered.distinct q i alive.used alive'.used
      (other.trans pid.symm)
    exact ⟨p, mine, by rw [child, same, adopter], used⟩

/-- The first process exits, and its child is passed on. -/
theorem orphans_kept_first :
    ∃ m : Machine 64 4, Reachable m ∧ .adopted 4 5 ∈ m.family ∧ ¬ Waited m.family 5 := by
  have ends : ((main 64 4 1 fun i => i.val + 2).bind
      (execAll (List.replicate 14 (0, .go) ++
        [(0, .trap .fork), (0, .go), (0, .kalloc (some 9)), (0, .go), (0, .copyuvm true),
          (0, .go), (0, .go), (0, .go), (0, .trap .exit)] ++ List.replicate 4 (0, .go)))).any
        fun m => .adopted 4 5 ∈ m.family := by
    decide +kernel
  rcases reachable_run ends with ⟨m, reachable, adopted⟩
  have adopted := of_decide_eq_true adopted
  exact ⟨m, reachable, adopted, (orphans_kept reachable adopted).2.2.1⟩

/-! ## Orphans and the first process -/

/-- The states of the runs in which all steps meet a condition on the state before. -/
inductive ReachableIf (condition : Fin cpus → Machine slots cpus → Prop) :
    Machine slots cpus → Prop where
  | boot {m : Machine slots cpus} (page : Nat) (idle : Fin 3 → Nat)
      (booted : main slots cpus page idle = some m) : ReachableIf condition m
  | step {m m' : Machine slots cpus} {c : Fin cpus} {a : Action slots}
      (before : ReachableIf condition m) (meets : condition c m)
      (effect : exec c a m = some m') : ReachableIf condition m'

section Condition

variable {condition : Fin cpus → Machine slots cpus → Prop}

theorem ReachableIf.reachable (reachable : ReachableIf condition m) : Reachable m := by
  induction reachable with
  | boot page idle booted => exact .boot page idle booted
  | step _ _ effect ih => exact ih.step (.exec _ _ effect)

variable [∀ c, DecidablePred (condition c)]

/-- The steps of some processors in turn, as long as they meet the condition. -/
def execAllIf (condition : Fin cpus → Machine slots cpus → Prop)
    [∀ c, DecidablePred (condition c)] (steps : List (Fin cpus × Action slots))
    (m : Machine slots cpus) : Option (Machine slots cpus) :=
  steps.foldlM (fun m step => if condition step.1 m then exec step.1 step.2 m else none) m

theorem ReachableIf.execAllIf (reachable : ReachableIf condition m)
    (steps : List (Fin cpus × Action slots)) (ends : execAllIf condition steps m = some m') :
    ReachableIf condition m' := by
  induction steps generalizing m with
  | nil =>
      cases ends
      exact reachable
  | cons step steps ih =>
      rcases Option.bind_eq_some_iff.mp ends with ⟨m₁, first, rest⟩
      dsimp only at first
      split at first
      · next meets => exact ih (reachable.step meets first) rest
      · cases first

end Condition

namespace Machine

/-- No process that has a child exits, and that of `user_init`, which has pid 1, does not. -/
structure ExitsChildless (c : Fin cpus) (m : Machine slots cpus) : Prop where
  childless : ∀ me k p, m.current c = some me → m.code c = .exit :: k →
    (m.proc p).parent ≠ some me
  first : ∀ me k, m.current c = some me → m.code c = .checkInit :: k → m.pid me ≠ 1

theorem exitsChildless_iff : ((m.current c).all fun me =>
    match m.code c with
    | .exit :: _ => !m.proc.havekids me
    | .checkInit :: _ => m.pid me ≠ 1
    | _ => true) = true ↔ m.ExitsChildless c := by
  cases here : m.current c with
  | none => exact iff_of_true rfl ⟨by simp [here], by simp [here]⟩
  | some me =>
      rw [Option.all_some]
      split
      · next k code =>
          rw [Bool.not_eq_true', ← Bool.not_eq_true, Table.havekids_iff]
          constructor
          · intro none
            constructor
            · rintro me' k' p here' - child
              cases here.symm.trans here'
              exact none ⟨p, child⟩
            · intro me' k' _ other
              cases code.symm.trans other
          · rintro meets ⟨p, child⟩
            exact meets.childless me k p here code child
      · next k code =>
          rw [decide_eq_true_eq]
          constructor
          · intro other
            constructor
            · intro me' k' p _ exits
              cases code.symm.trans exits
            · rintro me' k' here' -
              cases here.symm.trans here'
              exact other
          · intro meets
            exact meets.first me k here code
      · next exits checks =>
          exact iff_of_true rfl
            ⟨fun _ k _ _ code => absurd code (exits k), fun _ k _ code => absurd code (checks k)⟩

instance (c : Fin cpus) : DecidablePred fun m : Machine slots cpus => m.ExitsChildless c :=
  fun _ => decidable_of_iff _ exitsChildless_iff

/-- `exit` passes children on to the process of `user_init`, whose own call panics. -/
structure OrphansToInit (c : Fin cpus) (m m' : Machine slots cpus) : Prop where
  orphan : ∀ me k p, m.current c = some me → m.code c = .exit :: k →
    (m.proc p).parent = some me → ∃ i, (m'.proc p).parent = some i ∧ m'.pid i = 1
  exit : ∀ me k, m.current c = some me → m.code c = .checkInit :: k → m.pid me = 1 →
    m'.code c = .panic "init exiting" :: .checkInit :: k

/-- No process is the child of one that loops. -/
def Fathered (m : Machine slots cpus) : Prop :=
  ∀ p q, (m.proc p).parent = some q → m.program q ≠ .loop

theorem Fathered.step (fathered : m.Fathered) (looping : m.Looping)
    (meets : m.ExitsChildless c) (effect : Effect c m m') : m'.Fathered := by
  intro p q child loop
  have before := looping.program_step effect loop
  cases effect.ofParent p with
  | same parent => exact fathered p q (parent.symm.trans child) before
  | born me k here code parent =>
      cases parent.symm.trans child
      exact looping.calls here code rfl rfl before
  | adopted me k here code parent _ => exact meets.childless me k p here code parent
  | reaped me k _ _ _ parent => cases parent.symm.trans child

end Machine

theorem ReachableIf.fathered (reachable : ReachableIf (fun c m => m.ExitsChildless c) m) :
    m.Fathered := by
  induction reachable with
  | boot page idle booted =>
      intro p q child
      rw [(main_fresh booted).1.parent p] at child
      cases child
  | step before meets effect ih =>
      exact ih.step before.reachable.looping meets (exec_effect effect)

/-- Children are passed on to an idle process, and the check of `exit` is on its pid. -/
theorem Reachable.orphansToInit_iff {a : Action slots} (reachable : Reachable m)
    (effect : exec c a m = some m') : m.OrphansToInit c m' ↔ m.ExitsChildless c := by
  rcases reachable.idles.initproc with ⟨i, initproc, pid, _⟩
  constructor
  · intro meets
    constructor
    · intro me k p here code child
      rcases meets.orphan me k p here code child with ⟨q, parent, first⟩
      simp only [exec, code, here, Option.bind_some, Stmt.runProc, Option.some.injEq] at effect
      subst effect
      have passed : ((Stmt.runExit c k m me).proc p).parent = some i := by
        change (m.proc.exit me m.initproc p).parent = some i
        rw [Table.exit_apply, if_pos child, initproc]
      cases passed.symm.trans parent
      have same : (Stmt.runExit c k m me).pid i = m.pid i := by
        change (m.proc.exit me m.initproc i).pid = (m.proc i).pid
        rw [Table.exit_apply]
      omega
    · intro me k here code first
      have panics := meets.exit me k here code first
      have other : some me ≠ m.initproc := by
        rw [initproc]
        rintro ⟨⟩
        omega
      simp only [exec, code, here, Option.bind_some, Stmt.runProc, if_neg other,
        Option.some.injEq] at effect
      subst effect
      have longer := congrArg List.length panics
      simp [Machine.goto] at longer
      omega
  · intro meets
    constructor
    · intro me k p here code child
      exact absurd child (meets.childless me k p here code)
    · intro me k here code first
      exact absurd first (meets.first me k here code)

/--
A step passes children on to the process of `user_init`, and does not let that process
exit, exactly if no process that has a child exits in it, nor that process; and where all
steps of a run are so, no process that loops has a zombie for a child.
-/
theorem orphans_go_to_init :
    (∀ m : Machine slots cpus, ReachableIf (fun c m => m.ExitsChildless c) m →
      ∀ p q, (m.proc p).state = .ZOMBIE → (m.proc p).parent = some q → m.program q ≠ .loop) ∧
    ∀ (m m' : Machine slots cpus) (c : Fin cpus) (a : Action slots), Reachable m →
      exec c a m = some m' → (m.OrphansToInit c m' ↔ m.ExitsChildless c) :=
  ⟨fun _ reachable p q _ child => reachable.fathered p q child,
    fun _ _ _ _ reachable effect => reachable.orphansToInit_iff effect⟩

/-- The child of the first process exits, and has no children. -/
theorem orphans_go_to_init_childless :
    ∃ m : Machine 8 4, ReachableIf (fun c m => m.ExitsChildless c) m ∧
      (m.proc 4).state = .ZOMBIE ∧ (m.proc 4).parent = some 0 ∧ m.program 0 ≠ .loop := by
  have ends : ((main 8 4 1 fun i => i.val + 2).bind
      (execAllIf (fun c m => m.ExitsChildless c) (childExits 0 1 2 3))).any
        fun m => (m.proc 4).state = .ZOMBIE ∧ (m.proc 4).parent = some 0 := by
    decide
  rcases (Option.any_eq_true _ _).mp ends with ⟨m, ends, tested⟩
  rcases Option.bind_eq_some_iff.mp ends with ⟨m₀, booted, ends⟩
  rcases of_decide_eq_true tested with ⟨zombie, child⟩
  have reachable := (ReachableIf.boot _ _ booted).execAllIf _ ends
  exact ⟨m, reachable, zombie, child, orphans_go_to_init.1 m reachable 4 0 zombie child⟩

/-- The child of the first process exits, and its own child is passed on to pid 4. -/
theorem not_orphans_go_to_init :
    ¬ ∀ (m m' : Machine 64 4) (c : Fin 4) (a : Action 64), Reachable m →
      exec c a m = some m' → m.OrphansToInit c m' := by
  intro always
  have ends : ((main 64 4 1 fun i => i.val + 2).bind
      (execAll (List.replicate 14 (0, .go) ++
        [(0, .trap .fork), (0, .go), (0, .kalloc (some 9)), (0, .go), (0, .copyuvm true),
          (0, .go), (0, .go), (0, .go), (0, .trap .wait)] ++ List.replicate 5 (1, .go) ++
        List.replicate 5 (2, .go) ++ List.replicate 5 (3, .go) ++ List.replicate 13 (0, .go) ++
        [(0, .trap .fork), (0, .go), (0, .kalloc (some 10)), (0, .go), (0, .copyuvm true),
          (0, .go), (0, .go), (0, .go), (0, .trap .exit)] ++ List.replicate 3 (0, .go)))).any
        fun m => m.current 0 = some 4 ∧ (m.code 0).head? = some .exit ∧
          (m.proc 5).parent = some 4 ∧ (exec 0 .go m).any fun m' =>
            (m'.proc 5).parent = some 3 ∧ m'.pid 3 = 4 := by
    decide +kernel
  rcases reachable_run ends with ⟨m, reachable, tested⟩
  rcases of_decide_eq_true tested with ⟨here, exits, child, next⟩
  rcases (Option.any_eq_true _ _).mp next with ⟨m', effect, after⟩
  rcases of_decide_eq_true after with ⟨passed, idle⟩
  rcases List.head?_eq_some_iff.mp exits with ⟨k, code⟩
  rcases (always m m' 0 .go reachable effect).orphan 4 k 5 here code child with
    ⟨q, parent, first⟩
  cases passed.symm.trans parent
  omega

end PiKernel.Ptable
