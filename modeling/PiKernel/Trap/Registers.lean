import PiKernel.Trap.Calls

/-!
# The registers of user processes

In every run from the boot of the machine, a process that returns from a trap has the
registers that it had, as far as a trap frame has room for them.
-/

namespace PiKernel.Trap

-- The code is used by what it does and not executed.
attribute [local irreducible] run

variable {layout : Layout} {m m' : Machine} {c : Cpu}

/-! ## Runs -/

/-- The processors have entered `main`, and there is no process. -/
structure Boot (layout : Layout) (m : Machine) : Prop where
  mode : ∀ c, m.mode c = .scheduler
  sp : ∀ c, (m.regs c).sp = layout.stack c
  lock : m.lock = none
  state : ∀ p, m.state p = .UNUSED

inductive Reachable (layout : Layout) : Machine → Prop where
  | boot {m : Machine} (boot : Boot layout m) : Reachable layout m
  | step {m m' : Machine} {c : Cpu} {action : Action} (reachable : Reachable layout m)
      (step : exec layout c m action = some m') : Reachable layout m'

theorem Boot.inv (boot : Boot layout m) : Inv layout m := by
  constructor
  · exact fun p live => absurd (boot.state p) live
  · exact fun p _ live => absurd (boot.state p) live
  · intro c c' p owner
    rw [boot.mode c] at owner
    cases owner
  · intro c p owner
    rw [boot.mode c] at owner
    cases owner
  · intro c p pc pstate user
    rw [boot.mode c] at user
    cases user
  · intro c t onStack
    rw [boot.mode c] at onStack
    cases onStack
    rw [boot.sp c]
    exact ⟨Nat.sub_le .., le_refl _⟩
  · rintro (p | c) ⟨live, away⟩
    · exact absurd (boot.state p) live
    · apply absurd _ (away c)
      rw [boot.mode c]
      rfl
  · intro p embryo
    rw [boot.state p] at embryo
    cases embryo
  · exact fun p _ live => absurd (boot.state p) live

/-- The two calls of `swtch`. -/
theorem Inv.swtch (valid : layout.Valid) (inv : Inv layout m)
    (step : exec layout c m .swtch = some m') :
    Inv layout m' ∧ ∃ t f, (m'.mode c).thread c = t ∧ m.saved t = some f ∧
      Resumed layout m' c t f := by
  unfold exec at step
  dsimp only at step
  split at step
  · rename_i p mode
    split at step
    · rename_i room
      cases step
      have stack := inv.stack c (.proc p) (by rw [mode]; rfl)
      have running : (m.mode c).thread c = .proc p := by
        rw [mode]
        rfl
      have live : Live m (.proc p) := by
        intro unused
        rcases inv.running c p (by rw [mode]; rfl) with state | ⟨_, _, state | state | state⟩ <;>
          rw [state] at unused <;> cases unused
      have idle : Idle m (.scheduler c) := by
        refine ⟨trivial, fun c' same => ?_⟩
        by_cases here : c' = c
        · rw [here, running] at same
          cases same
        · generalize m.mode c' = other at same
          cases other <;> cases same <;> exact here rfl
      rcases inv.idle _ idle with ⟨f, saved, suspended⟩
      constructor
      · apply inv.switch valid running live idle room stack.2
        · rfl
        · rfl
        · exact fun _ _ _ => Mode.noConfusion
        · exact fun _ owner => by cases owner
      · refine ⟨_, f, ?_, saved, ?_⟩
        · change (Function.update m.mode c .scheduler c).thread c = _
          rw [Function.update_self]
          rfl
        · exact inv.resumed valid (fun idle => idle.2 c running) live room stack.2 idle suspended
    · cases step
  · rename_i p mode
    split at step
    · rename_i room
      cases step
      have stack := inv.stack c (.scheduler c) (by rw [mode]; rfl)
      have running : (m.mode c).thread c = .scheduler c := by
        rw [mode]
        rfl
      have owner : (m.mode c).owner = some p := by
        rw [mode]
        rfl
      have state : m.state p = .RUNNING := by
        rcases inv.running c p owner with state | ⟨leaving, _⟩
        · exact state
        · rw [mode] at leaving
          cases leaving
      have idle : Idle m (.proc p) := by
        constructor
        · intro unused
          rw [state] at unused
          cases unused
        · intro c' same
          have owner' : (m.mode c').owner = some p := by
            generalize m.mode c' = other at same
            cases other <;> cases same <;> rfl
          have here := inv.once c' c p owner' owner
          rw [here, running] at same
          cases same
      rcases inv.idle _ idle with ⟨f, saved, suspended⟩
      constructor
      · apply inv.switch valid running trivial idle room stack.2
        · rfl
        · rfl
        · exact fun _ _ _ => Mode.noConfusion
        · intro p' owner'
          cases owner'
          exact ⟨owner, state⟩
      · refine ⟨_, f, ?_, saved, ?_⟩
        · change (Function.update m.mode c (.kernel p) c).thread c = _
          rw [Function.update_self]
          rfl
        · exact inv.resumed valid (fun idle => idle.2 c running) trivial room stack.2 idle suspended
    · cases step
  · cases step

/-! ## One step -/

/-- An action of C code that has a condition. -/
theorem code_step {cond : Thread → Prop} [DecidablePred cond] {next : Machine}
    (step : (match m.cThread c with
      | some t => if cond t then some next else none
      | none => none) = some m') :
    ∃ t, m.cThread c = some t ∧ cond t ∧ next = m' := by
  split at step
  · rename_i t running
    split at step
    · rename_i met
      exact ⟨t, running, met, Option.some.inj step⟩
    · cases step
  · cases step

/-- An action of C code on the stack of a process. -/
theorem kernel_step {next : Pid → Option Machine}
    (step : (match m.mode c with
      | .kernel p => next p
      | _ => none) = some m') :
    ∃ p, m.mode c = .kernel p ∧ next p = some m' := by
  split at step
  · rename_i p mode
    exact ⟨p, mode, step⟩
  · cases step

/-- C code changes the state of a process that no processor executes. -/
theorem Inv.setStopped {p : Pid} {t : Thread} {state : ProcState} (inv : Inv layout m)
    (running : m.cThread c = some t)
    (stopped : m.state p = .EMBRYO ∨
      m.lock = some c ∧ (m.state p = .SLEEPING ∨ m.state p = .ZOMBIE))
    (old : state ≠ .EMBRYO) : Inv layout (m.setState p state) := by
  have states : m.state p ≠ .RUNNING ∧ m.state p ≠ .UNUSED := by
    rcases stopped with embryo | ⟨_, asleep | dead⟩
    · rw [embryo]
      exact ⟨ProcState.noConfusion, ProcState.noConfusion⟩
    · rw [asleep]
      exact ⟨ProcState.noConfusion, ProcState.noConfusion⟩
    · rw [dead]
      exact ⟨ProcState.noConfusion, ProcState.noConfusion⟩
  apply inv.setState _ states.2 old
  apply inv.unowned states.1
  rcases stopped with embryo | ⟨lock, _⟩
  · exact Or.inr (Or.inr (Or.inl embryo))
  · exact Or.inl ⟨t, running, lock⟩

theorem Inv.acquire (inv : Inv layout m) (step : exec layout c m .acquire = some m') :
    Inv layout m' := by
  unfold exec at step
  dsimp only at step
  split at step
  · rename_i t _ lock
    cases step
    apply inv.setLock
    intro c' p _ held
    rw [lock] at held
    cases held
  · cases step

theorem Inv.release {t : Thread} (inv : Inv layout m) (running : m.cThread c = some t)
    (lock : m.lock = some c) : Inv layout { m with lock := none } := by
  apply inv.setLock
  intro c' p leaving held
  rw [lock] at held
  cases held
  exact (cThread_mode running).2.2 p leaving

/-- C code writes on its own stack. -/
theorem Inv.store {t : Thread} {addr : Nat} {value : UInt64} (valid : layout.Valid)
    (inv : Inv layout m) (running : m.cThread c = some t) (first : m.bottom layout t ≤ addr)
    (last : addr < m.top layout t) : Inv layout (m.store addr value) := by
  have own := inv.live_cThread running
  apply inv.memory
  intro a matters
  apply Function.update_of_ne
  rintro rfl
  exact inv.own_stack valid own.1 own.2 first last matters

/-- The trap frame of a new process is filled. -/
theorem Inv.fill {p : Pid} {addr : Nat} {value : UInt64} (valid : layout.Valid)
    (inv : Inv layout m) (embryo : m.state p = .EMBRYO) (first : m.tf p ≤ addr)
    (last : addr < m.kstack p + KSTACKSIZE) : Inv layout (m.store addr value) := by
  have live : m.state p ≠ .UNUSED := by
    rw [embryo]
    exact ProcState.noConfusion
  apply inv.memory
  intro a matters
  apply Function.update_of_ne
  rintro rfl
  exact inv.own_frame valid live (inv.fresh p embryo) first last matters

/-- What `execve` does to the trap frame. -/
theorem Inv.execve_step {stage : Stage} {next : Pid → Trapped → Option Machine}
    (step : (match m.mode c with
      | .kernel p =>
          match m.inExecve layout p stage with
          | some t => next p t
          | none => none
      | _ => none) = some m')
    (keeps : ∀ p t, m.mode c = .kernel p → m.inExecve layout p stage = some t →
      next p t = some m' → Inv layout m') :
    Inv layout m' := by
  rcases kernel_step step with ⟨p, mode, step⟩
  split at step
  · rename_i t inside
    exact keeps p t mode inside step
  · cases step

theorem Inv.returned {value : UInt64} (valid : layout.Valid) (inv : Inv layout m)
    (step : exec layout c m (.result value) = some m') : Inv layout m' := by
  unfold exec at step
  rcases kernel_step step with ⟨p, mode, step⟩
  split at step
  · rename_i t stored calling stores
    split at step
    · rename_i may
      cases step
      have next := inv.result value valid mode calling stores may
      cases stored <;> exact next
    · cases step
  · cases step

/-- Every action keeps the invariant. -/
theorem Inv.step {action : Action} (valid : layout.Valid) (inv : Inv layout m)
    (step : exec layout c m action = some m') : Inv layout m' := by
  cases action with
  | user after =>
      unfold exec at step
      dsimp only at step
      split at step
      · rename_i p pc pstate mode
        cases step
        exact inv.user_step mode rfl
      · cases step
  | trap cause =>
      unfold exec at step
      dsimp only at step
      split at step
      · rename_i p pc pstate mode
        cases step
        exact inv.trap valid mode
      · cases step
  | code x q sp =>
      unfold exec at step
      rcases code_step step with ⟨t, running, within, rfl⟩
      exact inv.setRegs running ⟨within.1, within.2.1⟩
  | store addr value =>
      unfold exec at step
      rcases code_step step with ⟨t, running, within, rfl⟩
      exact inv.store valid running within.1 within.2.1
  | acquire => exact inv.acquire step
  | release =>
      unfold exec at step
      rcases code_step step with ⟨t, running, lock, rfl⟩
      exact inv.release running lock
  | sched state =>
      unfold exec at step
      rcases kernel_step step with ⟨p, mode, step⟩
      split at step
      · rename_i allowed
        cases step
        exact inv.sched mode allowed.1 allowed.2
      · cases step
  | wakeup p =>
      unfold exec at step
      rcases code_step step with ⟨t, running, asleep, rfl⟩
      exact inv.setStopped running (Or.inr ⟨asleep.1, Or.inl asleep.2⟩) ProcState.noConfusion
  | choose p =>
      unfold exec at step
      dsimp only at step
      split at step
      · rename_i mode
        split at step
        · rename_i allowed
          cases step
          exact inv.choose mode allowed.1 allowed.2
        · cases step
      · cases step
  | swtch => exact (inv.swtch valid step).1
  | alloc p kstack page =>
      unfold exec at step
      rcases code_step step with ⟨t, running, allowed, rfl⟩
      exact inv.alloc valid allowed.2.1 allowed.2.2
  | fill p addr value =>
      unfold exec at step
      rcases code_step step with ⟨t, running, allowed, rfl⟩
      exact inv.fill valid allowed.1 allowed.2.1 allowed.2.2.1
  | ready p =>
      unfold exec at step
      rcases code_step step with ⟨t, running, embryo, rfl⟩
      exact inv.setStopped running (Or.inl embryo) ProcState.noConfusion
  | reap p =>
      unfold exec at step
      rcases code_step step with ⟨t, running, dead, rfl⟩
      apply inv.setStopped running _ ProcState.noConfusion
      exact dead.imp_right fun zombie => ⟨zombie.1, Or.inr zombie.2⟩
  | argc argc =>
      unfold exec at step
      apply Inv.execve_step step
      intro p t mode inside step
      split at step
      · cases step
        exact inv.argc valid mode inside
      · cases step
  | argv argv =>
      unfold exec at step
      apply Inv.execve_step step
      intro p t mode inside step
      cases step
      exact inv.argv valid mode inside
  | image sp elr =>
      unfold exec at step
      apply Inv.execve_step step
      intro p t mode inside step
      cases step
      exact inv.image valid mode inside
  | result value => exact inv.returned valid step
  | trapret =>
      unfold exec at step
      rcases kernel_step step with ⟨p, mode, step⟩
      split at step
      · rename_i allowed
        cases step
        exact inv.resume mode allowed.1
      · cases step

theorem Reachable.inv (valid : layout.Valid) (reachable : Reachable layout m) :
    Inv layout m := by
  induction reachable with
  | boot boot => exact boot.inv
  | step _ step ih => exact ih.step valid step

/--
In every run, whatever all processes do with their registers: a process that returns from
a trap has all registers that it had but `q1` to `q31`, up to the result of a system call
and the registers that `execve` sets as far as it has got, and `swtch` returns to its
caller on every stack.
-/
theorem user_registers_kept (valid : layout.Valid) (reachable : Reachable layout m) :
    (∀ c p t m', m.mode c = .kernel p → m.trapped p = some t →
      exec layout c m .trapret = some m' →
      ∃ pc pstate, m'.mode c = .user p pc pstate ∧ Kept layout t (m'.user c pc pstate) ∧
        (t.cause = .svc 0 → t.result ≠ none)) ∧
    ∀ c m', exec layout c m .swtch = some m' →
      ∃ t f, (m'.mode c).thread c = t ∧ m.saved t = some f ∧ Resumed layout m' c t f := by
  have inv := reachable.inv valid
  constructor
  · intro c p t m' mode trapped step
    have live : m.state p ≠ .UNUSED := by
      rw [inv.running_kernel mode]
      exact ProcState.noConfusion
    have kept := inv.frames p t live trapped (m.regs c).q
    unfold exec at step
    rw [mode] at step
    dsimp only at step
    split at step
    · rename_i allowed
      cases step
      have code := user_trapret layout.pair (m.regs c) m.mem
      rw [allowed.1] at code
      have regs : (m.resume layout c p).regs c = (run layout.pair trapret (m.regs c, m.mem)).1 :=
        Function.update_self ..
      refine ⟨(run layout.pair trapret (m.regs c, m.mem)).1.sys .elr_el1,
        (run layout.pair trapret (m.regs c, m.mem)).1.sys .spsr_el1, Function.update_self ..,
        ?_, ?_⟩
      · unfold Machine.user
        rw [regs, code.2.2]
        exact kept
      · intro cause none
        have calling : m.calling p = some t := by
          unfold Machine.calling
          rw [trapped]
          exact if_pos ⟨cause, none⟩
        have handled := allowed.2.2
        rw [Machine.handled, calling] at handled
        cases handled
    · cases step
  · intro c m' step
    exact (inv.swtch valid step).2

/-! ## Two processes -/

/-- The table of processes is at the start of the kernel. -/
def twoPages : Layout where
  start := 0x80000
  heap := 0x90000
  field t :=
    match t with
    | .proc p => 0x80000 + 8 * p
    | .scheduler c => 0x80400 + 8 * c
  trapret := 0x80800
  forkret := 0x80900
  sysno _ := none
  pair first _ := first

theorem twoPages_valid : twoPages.Valid := by
  constructor
  · decide
  · rintro (p | c)
    · have bound := p.isLt
      simp only [twoPages, NPROC] at bound ⊢
      omega
    · have bound := c.isLt
      simp only [twoPages, NCPU] at bound ⊢
      omega
  · rintro (p | c) (p' | c') equal
    · change 0x80000 + 8 * p.val = 0x80000 + 8 * p'.val at equal
      rw [Fin.ext (show p.val = p'.val by omega)]
    · have bound := p.isLt
      simp only [twoPages, NPROC] at bound equal
      omega
    · have bound := p'.isLt
      simp only [twoPages, NPROC] at bound equal
      omega
    · change 0x80400 + 8 * c.val = 0x80400 + 8 * c'.val at equal
      rw [Fin.ext (show c.val = c'.val by omega)]
  · decide

def powerOn : Machine where
  regs c :=
    { x := fun _ => 0, sp := twoPages.stack c, sys := fun _ => 0, q := fun _ => (0, 0) }
  mode _ := .scheduler
  mem _ := 0
  lock := none
  state _ := .UNUSED
  kstack _ := 0
  saved _ := none
  trapped _ := none

def firstCpu : Cpu := ⟨0, by decide⟩
def firstProc : Pid := ⟨0, by decide⟩
def secondProc : Pid := ⟨1, by decide⟩

/-- The actions of one processor. -/
def runs (layout : Layout) (c : Cpu) : List Action → Machine → Option Machine
  | [], m => some m
  | action :: rest, m => (exec layout c m action).bind (runs layout c rest)

theorem Reachable.runs {actions : List Action} (reachable : Reachable layout m)
    (run : runs layout c actions m = some m') : Reachable layout m' := by
  induction actions generalizing m with
  | nil =>
      cases run
      exact reachable
  | cons action rest ih =>
      rcases Option.bind_eq_some_iff.mp run with ⟨next, step, later⟩
      exact ih (.step reachable step) later

/-- A user process that has put `value` into `q1`. -/
def withQ1 (value : UInt64) : User where
  x _ := 5
  q i := if i = 1 then (value, 0) else (0, 0)
  sp_el0 := 6
  tpidr_el0 := 7
  pc := 8
  pstate := 9

/-- From `swtch` to the user process, which sets `q1` and is interrupted. -/
def turn (kstack : Nat) (value : UInt64) : List Action :=
  [.swtch, .release, .code (fun _ => 0) (fun _ => (0, 0)) (kstack + KSTACKSIZE - TRAPFRAME),
    .trapret, .user (withQ1 value), .trap .irq, .acquire, .sched .RUNNABLE, .swtch]

/-- Both processes are interrupted, and the first one is about to return. -/
def bothInterrupted : List Action :=
  [.acquire, .alloc firstProc 0x90000 (fun _ => 0), .ready firstProc,
    .alloc secondProc 0x91000 (fun _ => 0), .ready secondProc, .choose firstProc] ++
    turn 0x90000 1 ++ [.choose secondProc] ++ turn 0x91000 2 ++
    [.choose firstProc, .swtch, .release]

theorem reachable_bothInterrupted {m : Machine}
    (run : runs twoPages firstCpu bothInterrupted powerOn = some m) : Reachable twoPages m := by
  apply Reachable.runs _ run
  apply Reachable.boot
  constructor
  · exact fun _ => rfl
  · exact fun _ => rfl
  · rfl
  · exact fun _ => rfl

/-- What both runs below start from. -/
theorem bothInterrupted_ends : ∃ m m' t,
    runs twoPages firstCpu bothInterrupted powerOn = some m ∧
      m.mode firstCpu = .kernel firstProc ∧ m.trapped firstProc = some t ∧
      exec twoPages firstCpu m .trapret = some m' ∧ t.cause = .irq ∧ t.user.x 3 = 5 ∧
      t.user.sp_el0 = 6 ∧ t.user.tpidr_el0 = 7 ∧ t.user.pc = 8 ∧ t.user.q 1 = (1, 0) ∧
      (m'.regs firstCpu).q 1 = (2, 0) := by
  have mode : (runs twoPages firstCpu bothInterrupted powerOn).map (fun m => m.mode firstCpu) =
      some (.kernel firstProc) := by decide +kernel
  have trapped : ((runs twoPages firstCpu bothInterrupted powerOn).bind fun m =>
      (m.trapped firstProc).map fun t =>
        (t.cause, t.user.x 3, t.user.sp_el0, t.user.pc, t.user.q 1)) =
      some (.irq, 5, 6, 8, (1, 0)) := by decide +kernel
  have thread : ((runs twoPages firstCpu bothInterrupted powerOn).bind fun m =>
      (m.trapped firstProc).map fun t => t.user.tpidr_el0) = some 7 := by decide +kernel
  have resumed : ((runs twoPages firstCpu bothInterrupted powerOn).bind fun m =>
      (exec twoPages firstCpu m .trapret).map fun m' => (m'.regs firstCpu).q 1) =
      some (2, 0) := by decide +kernel
  rcases run : runs twoPages firstCpu bothInterrupted powerOn with _ | m
  · rw [run] at mode
    cases mode
  · rw [run] at mode trapped thread resumed
    rcases Option.map_eq_some_iff.mp trapped with ⟨t, some, registers⟩
    have tpidr : t.user.tpidr_el0 = 7 := by
      simpa [some] using thread
    rcases Option.map_eq_some_iff.mp resumed with ⟨m', step, q1⟩
    simp only [Prod.mk.injEq] at registers
    exact ⟨m, m', t, rfl, Option.some.inj mode, some, step, registers.1, registers.2.1,
      registers.2.2.1, tpidr, registers.2.2.2.1, registers.2.2.2.2, q1⟩

/-- The first process gets back its registers. -/
theorem user_registers_kept_twoPages : ∃ m m' pc pstate,
    runs twoPages firstCpu bothInterrupted powerOn = some m ∧
      exec twoPages firstCpu m .trapret = some m' ∧
      m'.mode firstCpu = .user firstProc pc pstate ∧
      (m'.user firstCpu pc pstate).x 3 = 5 ∧ (m'.user firstCpu pc pstate).sp_el0 = 6 ∧
      (m'.user firstCpu pc pstate).tpidr_el0 = 7 ∧ pc = 8 := by
  rcases bothInterrupted_ends with
    ⟨m, m', t, run, mode, trapped, step, cause, x3, sp, tpidr, pc, _⟩
  have kept := (user_registers_kept twoPages_valid (reachable_bothInterrupted run)).1 _ _ t m'
    mode trapped step
  have irq : ¬ t.replaces twoPages := by
    rintro ⟨⟨svc, _⟩, _⟩
    rw [cause] at svc
    cases svc
  rcases kept with ⟨pc', pstate, user, kept, _⟩
  refine ⟨m, m', pc', pstate, run, step, user, ?_, ?_, ?_, ?_⟩
  · exact (kept.x 3 (by decide) fun one => absurd one (by decide)).trans x3
  · exact (kept.sp_el0 irq).trans sp
  · exact (kept.tpidr_el0 fun _ => rfl).trans tpidr
  · exact (kept.pc irq).trans pc

/-- The second process has changed `q1`. -/
theorem not_user_registers_kept :
    ¬ ∀ layout m c p t m', layout.Valid → Reachable layout m → m.mode c = .kernel p →
      m.trapped p = some t → t.cause = .irq → exec layout c m .trapret = some m' →
      ∃ pc pstate, m'.mode c = .user p pc pstate ∧ m'.user c pc pstate = t.user := by
  intro always
  rcases bothInterrupted_ends with
    ⟨m, m', t, run, mode, trapped, step, cause, _, _, _, _, before, after⟩
  rcases always twoPages m firstCpu firstProc t m' twoPages_valid (reachable_bothInterrupted run)
    mode trapped cause step with ⟨pc, pstate, _, same⟩
  have q1 : (m'.regs firstCpu).q 1 = t.user.q 1 := congrFun (congrArg User.q same) 1
  rw [before, after] at q1
  cases q1

end PiKernel.Trap
