import PiKernel.Trap.Invariant

/-!
# The steps of the machine

Locks, states, traps, `swtch` and new processes keep the invariant.
-/

namespace PiKernel.Trap

-- The code is used by what it does and not executed.
attribute [local irreducible] run

variable {layout : Layout} {m : Machine} {c : Cpu}

/-! ## Locks, states and registers -/

/-- C code runs, so the processor is not in `sched`. -/
theorem cThread_mode {t : Thread} (running : m.cThread c = some t) :
    (m.mode c).onStack c = some t ∧ (m.mode c).thread c = t ∧ ∀ p, m.mode c ≠ .leaving p := by
  unfold Machine.cThread at running
  split at running <;> rename_i mode
  · rw [mode]
    exact ⟨running, Option.some.inj running, fun _ => Mode.noConfusion⟩
  · rw [mode]
    exact ⟨running, Option.some.inj running, fun _ => Mode.noConfusion⟩
  · cases running

theorem Inv.live_cThread {t : Thread} (inv : Inv layout m) (running : m.cThread c = some t) :
    Live m t ∧ ¬ Idle m t := by
  constructor
  · unfold Machine.cThread at running
    split at running <;> rename_i mode
    · cases running
      rename_i p
      have owner : (m.mode c).owner = some p := by
        rw [mode]
        rfl
      intro unused
      rcases inv.running c p owner with state | ⟨_, _, state | state | state⟩ <;>
        rw [state] at unused <;> cases unused
    · cases running
      trivial
    · cases running
  · exact fun idle => idle.2 c (cThread_mode running).2.1

/-- A process whose state is changed by a holder of the lock is not on a processor. -/
theorem Inv.unowned {p : Pid} (inv : Inv layout m) (stopped : m.state p ≠ .RUNNING)
    (quiet : (∃ t, m.cThread c = some t ∧ m.lock = some c) ∨
      m.mode c = .scheduler ∧ m.lock = some c ∨ m.state p = .EMBRYO ∨ m.state p = .UNUSED) (c' : Cpu) :
    (m.mode c').owner ≠ some p := by
  intro owner
  rcases inv.running c' p owner with running | ⟨leaving, lock, state⟩
  · exact stopped running
  · rcases quiet with ⟨t, running, held⟩ | ⟨scheduler, held⟩ | embryo | unused
    · rw [held] at lock
      cases lock
      exact (cThread_mode running).2.2 p leaving
    · rw [held] at lock
      cases lock
      rw [scheduler] at leaving
      cases leaving
    · rw [embryo] at state
      simp at state
    · rw [unused] at state
      simp at state

/-- The lock is taken or given up where no process is in `sched`. -/
theorem Inv.setLock {lock : Option Cpu} (inv : Inv layout m)
    (quiet : ∀ c p, m.mode c = .leaving p → m.lock ≠ some c) :
    Inv layout { m with lock := lock } := by
  constructor
  · exact inv.page
  · exact inv.apart
  · exact inv.once
  · intro c p owner
    rcases inv.running c p owner with running | ⟨leaving, held, _⟩
    · exact Or.inl running
    · exact absurd held (quiet c p leaving)
  · exact inv.user
  · exact inv.stack
  · intro t idle
    rcases inv.idle t idle with ⟨f, saved, suspended⟩
    exact ⟨f, saved, suspended.congr rfl rfl rfl fun _ _ _ => rfl⟩
  · exact inv.fresh
  · exact inv.frames

theorem setState_apply {p p' : Pid} {state : ProcState} :
    (m.setState p state).state p' = if p' = p then state else m.state p' :=
  Function.update_apply ..

/-- A process that is not on a processor changes its state. -/
theorem Inv.setState {p : Pid} {state : ProcState} (inv : Inv layout m)
    (unowned : ∀ c, (m.mode c).owner ≠ some p) (live : m.state p ≠ .UNUSED)
    (old : state ≠ .EMBRYO) : Inv layout (m.setState p state) := by
  have alive : ∀ p', (m.setState p state).state p' ≠ .UNUSED → m.state p' ≠ .UNUSED := by
    intro p' alive
    rw [setState_apply] at alive
    split at alive <;> rename_i here
    · rw [here]
      exact live
    · exact alive
  constructor
  · exact fun p' alive' => inv.page p' (alive p' alive')
  · exact fun p' p'' alive' alive'' => inv.apart p' p'' (alive p' alive') (alive p'' alive'')
  · exact inv.once
  · intro c p' owner
    have other : p' ≠ p := fun here => unowned c (here ▸ owner)
    rw [setState_apply, if_neg other]
    exact inv.running c p' owner
  · exact inv.user
  · exact inv.stack
  · rintro t ⟨alive', away⟩
    have idle : Idle m t := by
      refine ⟨?_, away⟩
      rcases t with p' | c
      · exact alive p' alive'
      · trivial
    rcases inv.idle t idle with ⟨f, saved, suspended⟩
    exact ⟨f, saved, suspended.congr (by cases t <;> rfl) (by cases t <;> rfl) rfl
      fun _ _ _ => rfl⟩
  · intro p' embryo
    rw [setState_apply] at embryo
    split at embryo <;> rename_i here
    · exact absurd embryo old
    · exact inv.fresh p' embryo
  · exact fun p' t alive' => inv.frames p' t (alive p' alive')

/-- Other registers on a processor, which keeps its mode. -/
theorem Inv.setRegs {r : Regs} {t : Thread} (inv : Inv layout m) (running : m.cThread c = some t)
    (within : m.bottom layout t ≤ r.sp ∧ r.sp ≤ m.top layout t) :
    Inv layout { m with regs := Function.update m.regs c r } := by
  have mode := cThread_mode running
  constructor
  · exact inv.page
  · exact inv.apart
  · exact inv.once
  · exact inv.running
  · intro c' p pc pstate user
    change ((Function.update m.regs c r) c').sp = _ ∧ _
    rw [Function.update_of_ne]
    · exact inv.user c' p pc pstate user
    · rintro rfl
      rw [user] at mode
      cases mode.1
  · intro c' t' onStack
    change m.bottom layout t' ≤ (Function.update m.regs c r c').sp ∧
      (Function.update m.regs c r c').sp ≤ m.top layout t'
    by_cases here : c' = c
    · subst here
      rw [Function.update_self]
      have same : some t' = some t := onStack.symm.trans mode.1
      cases same
      exact within
    · rw [Function.update_of_ne here]
      exact inv.stack c' t' onStack
  · intro t idle
    rcases inv.idle t idle with ⟨f, saved, suspended⟩
    exact ⟨f, saved, suspended.congr rfl rfl rfl fun _ _ _ => rfl⟩
  · exact inv.fresh
  · exact inv.frames

/-! ## Modes -/

theorem setMode_apply {c' : Cpu} {mode : Mode} :
    (m.setMode c mode).mode c' = if c' = c then mode else m.mode c' :=
  Function.update_apply ..

/-- A process is chosen or enters `sched`: its state and the mode of the processor change. -/
theorem Inv.turn {p : Pid} {state : ProcState} {mode : Mode} (inv : Inv layout m)
    (owner : mode.owner = some p) (thread : mode.thread c = (m.mode c).thread c)
    (onStack : mode.onStack c = (m.mode c).onStack c)
    (only : ∀ c', c' ≠ c → (m.mode c').owner ≠ some p) (live : m.state p ≠ .UNUSED)
    (old : state ≠ .EMBRYO) (kernel : ∀ p pc pstate, mode ≠ .user p pc pstate)
    (turn : state = .RUNNING ∨ mode = .leaving p ∧ m.lock = some c ∧
      (state = .RUNNABLE ∨ state = .SLEEPING ∨ state = .ZOMBIE)) :
    Inv layout ((m.setState p state).setMode c mode) := by
  have alive : ∀ p', ((m.setState p state).setMode c mode).state p' ≠ .UNUSED →
      m.state p' ≠ .UNUSED := by
    intro p' alive
    change (m.setState p state).state p' ≠ _ at alive
    rw [setState_apply] at alive
    split at alive <;> rename_i here
    · rw [here]
      exact live
    · exact alive
  have owned : ∀ c' p', (((m.setState p state).setMode c mode).mode c').owner = some p' →
      c' = c ∧ p' = p ∨ c' ≠ c ∧ p' ≠ p ∧ (m.mode c').owner = some p' := by
    intro c' p' has
    rw [setMode_apply] at has
    split at has <;> rename_i here
    · rw [owner] at has
      exact Or.inl ⟨here, (Option.some.inj has).symm⟩
    · exact Or.inr ⟨here, fun same => only c' here (same ▸ has), has⟩
  constructor
  · exact fun p' alive' => inv.page p' (alive p' alive')
  · exact fun p' p'' alive' alive'' => inv.apart p' p'' (alive p' alive') (alive p'' alive'')
  · intro c' c'' p' first second
    rcases owned c' p' first with ⟨here, same⟩ | ⟨_, other, first⟩ <;>
      rcases owned c'' p' second with ⟨here', same'⟩ | ⟨_, other', second⟩
    · rw [here, here']
    · exact absurd same other'
    · exact absurd same' other
    · exact inv.once c' c'' p' first second
  · intro c' p' has
    change (m.setState p state).state p' = _ ∨ _ ∧ m.lock = _ ∧
      ((m.setState p state).state p' = _ ∨ (m.setState p state).state p' = _ ∨
        (m.setState p state).state p' = _)
    rw [setState_apply, setMode_apply]
    rcases owned c' p' has with ⟨here, same⟩ | ⟨here, other, has⟩
    · rw [if_pos same, if_pos here, here, same]
      exact turn
    · rw [if_neg other, if_neg here]
      exact inv.running c' p' has
  · intro c' p' pc pstate user
    rw [setMode_apply] at user
    split at user
    · exact absurd user (kernel p' pc pstate)
    · exact inv.user c' p' pc pstate user
  · intro c' t stack
    apply inv.stack c' t
    rw [setMode_apply] at stack
    split at stack <;> rename_i here
    · rw [here, ← onStack, ← stack, here]
    · exact stack
  · rintro t ⟨alive', away⟩
    have idle : Idle m t := by
      constructor
      · rcases t with p' | c'
        · exact alive p' alive'
        · trivial
      · intro c'
        have elsewhere := away c'
        rw [setMode_apply] at elsewhere
        split at elsewhere <;> rename_i here
        · rwa [here, ← thread, ← here]
        · exact elsewhere
    rcases inv.idle t idle with ⟨f, saved, suspended⟩
    exact ⟨f, saved, suspended.congr (by cases t <;> rfl) (by cases t <;> rfl) rfl
      fun _ _ _ => rfl⟩
  · intro p' embryo
    change (m.setState p state).state p' = _ at embryo
    rw [setState_apply] at embryo
    split at embryo
    · exact absurd embryo old
    · exact inv.fresh p' embryo
  · exact fun p' t alive' => inv.frames p' t (alive p' alive')

theorem Inv.sched {p : Pid} {state : ProcState} (inv : Inv layout m)
    (mode : m.mode c = .kernel p) (lock : m.lock = some c)
    (allowed : state = .RUNNABLE ∨ state = .SLEEPING ∨ state = .ZOMBIE) :
    Inv layout ((m.setState p state).setMode c (.leaving p)) := by
  have mine : (m.mode c).owner = some p := by
    rw [mode]
    rfl
  apply inv.turn
  · rfl
  · rw [mode]
    rfl
  · rw [mode]
    rfl
  · exact fun c' other owner => other (inv.once c' c p owner mine)
  · intro unused
    rcases inv.running c p mine with running | ⟨leaving, _⟩
    · rw [running] at unused
      cases unused
    · rw [mode] at leaving
      cases leaving
  · rcases allowed with rfl | rfl | rfl <;> exact ProcState.noConfusion
  · exact fun _ _ _ => Mode.noConfusion
  · exact Or.inr ⟨rfl, lock, allowed⟩

theorem Inv.choose {p : Pid} (inv : Inv layout m) (mode : m.mode c = .scheduler)
    (lock : m.lock = some c) (runnable : m.state p = .RUNNABLE) :
    Inv layout ((m.setState p .RUNNING).setMode c (.choosing p)) := by
  apply inv.turn
  · rfl
  · rw [mode]
    rfl
  · rw [mode]
    rfl
  · intro c' _
    apply inv.unowned
    · rw [runnable]
      exact ProcState.noConfusion
    · exact Or.inr (Or.inl ⟨mode, lock⟩)
  · rw [runnable]
    exact ProcState.noConfusion
  · exact ProcState.noConfusion
  · exact fun _ _ _ => Mode.noConfusion
  · exact Or.inl rfl

/-- A processor enters or leaves the kernel, or remains outside. -/
theorem Inv.cross {p : Pid} {mode : Mode} {r : Regs} {trapped : Option Trapped}
    (inv : Inv layout m) (owner : (m.mode c).owner = some p) (owner' : mode.owner = some p)
    (thread : (m.mode c).thread c = .proc p) (thread' : mode.thread c = .proc p)
    (running : m.state p = .RUNNING)
    (user : ∀ p' pc pstate, mode = .user p' pc pstate →
      r.sp = m.kstack p' + KSTACKSIZE ∧ trapped = none)
    (stack : ∀ t, mode.onStack c = some t →
      m.bottom layout t ≤ r.sp ∧ r.sp ≤ m.top layout t)
    (frame : ∀ t, trapped = some t → ∀ q,
      Kept layout t ((Trapframe.load m.mem (m.tf p)).user layout.pair q)) :
    Inv layout
      { m with
        regs := Function.update m.regs c r
        mode := Function.update m.mode c mode
        trapped := Function.update m.trapped p trapped } := by
  have owners : ∀ c', (Function.update m.mode c mode c').owner = (m.mode c').owner := by
    intro c'
    rw [Function.update_apply]
    split <;> rename_i here
    · rw [here, owner, owner']
    · rfl
  have threads : ∀ c', (Function.update m.mode c mode c').thread c' = (m.mode c').thread c' := by
    intro c'
    rw [Function.update_apply]
    split <;> rename_i here
    · rw [here, thread, thread']
    · rfl
  have others : ∀ p', p' ≠ p → Function.update m.trapped p trapped p' = m.trapped p' :=
    fun p' other => Function.update_of_ne other ..
  constructor
  · exact inv.page
  · exact inv.apart
  · intro c' c'' p' first second
    exact inv.once c' c'' p' ((owners c').symm.trans first) ((owners c'').symm.trans second)
  · intro c' p' has
    have had := (owners c').symm.trans has
    by_cases here : c' = c
    · subst here
      rw [owner] at had
      cases had
      exact Or.inl running
    · change m.state p' = _ ∨ Function.update m.mode c mode c' = _ ∧ _
      rw [Function.update_of_ne here]
      exact inv.running c' p' had
  · intro c' p' pc pstate has
    change (Function.update m.regs c r c').sp = _ ∧ Function.update m.trapped p trapped p' = _
    change Function.update m.mode c mode c' = _ at has
    by_cases here : c' = c
    · subst here
      rw [Function.update_self] at has ⊢
      have same : p = p' := by
        rw [has] at owner'
        exact (Option.some.inj owner').symm
      subst same
      rw [Function.update_self]
      exact user p pc pstate has
    · rw [Function.update_of_ne here] at has ⊢
      have old := inv.user c' p' pc pstate has
      refine ⟨old.1, ?_⟩
      rw [others]
      · exact old.2
      · rintro rfl
        apply here
        apply inv.once c' c p' _ owner
        rw [has]
        rfl
  · intro c' t has
    change m.bottom layout t ≤ (Function.update m.regs c r c').sp ∧
      (Function.update m.regs c r c').sp ≤ m.top layout t
    change (Function.update m.mode c mode c').onStack c' = _ at has
    by_cases here : c' = c
    · subst here
      rw [Function.update_self] at has ⊢
      exact stack t has
    · rw [Function.update_of_ne here] at has ⊢
      exact inv.stack c' t has
  · rintro t ⟨alive, away⟩
    rcases inv.idle t ⟨alive, fun c' => threads c' ▸ away c'⟩ with ⟨f, saved, suspended⟩
    exact ⟨f, saved, suspended.congr (by cases t <;> rfl) (by cases t <;> rfl) rfl
      fun _ _ _ => rfl⟩
  · intro p' embryo
    have other : p' ≠ p := by
      rintro rfl
      change m.state p' = _ at embryo
      rw [running] at embryo
      cases embryo
    exact (others p' other).trans (inv.fresh p' embryo)
  · intro p' t alive has q
    change Function.update m.trapped p trapped p' = some t at has
    by_cases here : p' = p
    · subst here
      rw [Function.update_self] at has
      exact frame t has q
    · rw [others p' here] at has
      exact inv.frames p' t alive has q

theorem Inv.running_user {p : Pid} {pc pstate : UInt64} (inv : Inv layout m)
    (mode : m.mode c = .user p pc pstate) : m.state p = .RUNNING := by
  rcases inv.running c p (by rw [mode]; rfl) with running | ⟨leaving, _⟩
  · exact running
  · rw [mode] at leaving
    cases leaving

theorem Inv.running_kernel {p : Pid} (inv : Inv layout m) (mode : m.mode c = .kernel p) :
    m.state p = .RUNNING := by
  rcases inv.running c p (by rw [mode]; rfl) with running | ⟨leaving, _⟩
  · exact running
  · rw [mode] at leaving
    cases leaving

/-- A user process executes some instructions. -/
theorem Inv.user_step {p : Pid} {pc pstate pc' pstate' : UInt64} {r : Regs}
    (inv : Inv layout m) (mode : m.mode c = .user p pc pstate) (sp : r.sp = (m.regs c).sp) :
    Inv layout ((m.ran c (r, m.mem)).setMode c (.user p pc' pstate')) := by
  have old := inv.user c p pc pstate mode
  have same : Function.update m.trapped p none = m.trapped := by
    rw [← old.2, Function.update_eq_self]
  have next : Inv layout
      { m with
        regs := Function.update m.regs c r
        mode := Function.update m.mode c (.user p pc' pstate')
        trapped := Function.update m.trapped p none } := by
    apply inv.cross
    · rw [mode]
      rfl
    · rfl
    · rw [mode]
      rfl
    · rfl
    · exact inv.running_user mode
    · intro p' _ _ user
      cases user
      exact ⟨sp.trans old.1, rfl⟩
    · exact fun _ absent => by cases absent
    · exact fun _ absent => by cases absent
  rw [same] at next
  exact next

/-- The frame that `alltraps` builds has all that is kept. -/
theorem kept_trap {r : Regs} {user : User} {cause : Cause} {q : Fin 32 → UInt64 × UInt64}
    (x : r.x = user.x) (q0 : r.q 0 = user.q 0) (sp_el0 : r.sys .sp_el0 = user.sp_el0)
    (tpidr_el0 : r.sys .tpidr_el0 = user.tpidr_el0) (pc : r.sys .elr_el1 = user.pc)
    (pstate : r.sys .spsr_el1 = user.pstate) :
    Kept layout { cause := cause, user := user, stage := .begun, result := none }
      ((Trapframe.of r).user layout.pair q) := by
  constructor
  · exact fun i _ _ => congrFun x i
  · change Function.update q 0 (r.q 0) 0 = user.q 0
    rw [Function.update_self]
    exact q0
  · exact fun _ => sp_el0
  · intro same
    change layout.pair (r.sys .tpidr_el0) (r.sys .tpidr_el0) = _
    rw [same]
    exact tpidr_el0
  · exact fun _ => pc
  · exact pstate
  · exact fun _ => congrFun x 0
  · exact fun value _ _ returned => by cases returned
  · exact fun value _ _ returned => by cases returned

/-- A trap. -/
theorem Inv.trap {p : Pid} {pc pstate : UInt64} {cause : Cause} (valid : layout.Valid)
    (inv : Inv layout m) (mode : m.mode c = .user p pc pstate) :
    Inv layout (m.trap layout c p pc pstate cause) := by
  have old := inv.user c p pc pstate mode
  have running := inv.running_user mode
  have live : m.state p ≠ .UNUSED := by
    rw [running]
    decide
  let r : Regs :=
    { m.regs c with
      sys := Function.update (Function.update (m.regs c).sys .elr_el1 pc) .spsr_el1 pstate }
  have sp : r.sp = m.kstack p + KSTACKSIZE := old.1
  have room : TRAPFRAME ≤ r.sp := by
    rw [sp]
    unfold TRAPFRAME KSTACKSIZE
    omega
  have frame : m.tf p = r.sp - TRAPFRAME := by
    rw [sp]
    rfl
  have code := run_alltraps layout.pair r m.mem
  have loaded := alltraps_load layout.pair r m.mem room
  rw [← frame] at loaded
  have same : ∀ addr, Protected layout m addr →
      (run layout.pair alltraps (r, m.mem)).2 addr = m.mem addr := by
    intro addr matters
    rw [code.1]
    apply pushAll_other
    · by_contra inside
      rw [not_or, not_lt, not_le] at inside
      apply inv.own_frame valid live old.2 _ _ matters
      · rw [frame]
        exact inside.1
      · rw [← sp]
        exact inside.2
    · exact room
  apply (inv.memory same).cross
  · exact (by rw [mode]; rfl : (m.mode c).owner = some p)
  · rfl
  · exact (by rw [mode]; rfl : (m.mode c).thread c = .proc p)
  · rfl
  · exact running
  · exact fun _ _ _ same => by cases same
  · intro t has
    cases has
    rw [code.2.1]
    change m.kstack p ≤ r.sp - TRAPFRAME ∧ r.sp - TRAPFRAME ≤ m.tf p
    rw [← frame]
    refine ⟨?_, le_refl _⟩
    unfold Machine.tf KSTACKSIZE TRAPFRAME
    omega
  · intro t has q
    cases has
    change Kept layout _
      ((Trapframe.load (run layout.pair alltraps (r, m.mem)).2 (m.tf p)).user layout.pair q)
    rw [loaded]
    apply kept_trap
    · rfl
    · rfl
    · rfl
    · rfl
    · rfl
    · rfl

/-- What `trapret` leaves in the registers. -/
theorem user_trapret (pair : Pair) (r : Regs) (mem : Mem) :
    (run pair trapret (r, mem)).2 = mem ∧ (run pair trapret (r, mem)).1.sp = r.sp + TRAPFRAME ∧
      (User.mk (run pair trapret (r, mem)).1.x (run pair trapret (r, mem)).1.q
        ((run pair trapret (r, mem)).1.sys .sp_el0) ((run pair trapret (r, mem)).1.sys .tpidr_el0)
        ((run pair trapret (r, mem)).1.sys .elr_el1)
        ((run pair trapret (r, mem)).1.sys .spsr_el1)) =
          (Trapframe.load mem r.sp).user pair r.q := by
  rcases run_trapret pair r mem with ⟨same, sp, x, sp_el0, elr, spsr, tpidr, q⟩
  rw [same, sp, x, sp_el0, elr, spsr, tpidr, q]
  exact ⟨rfl, rfl, rfl⟩

/-- The end of a trap. -/
theorem Inv.resume {p : Pid} (inv : Inv layout m) (mode : m.mode c = .kernel p)
    (sp : (m.regs c).sp = m.tf p) : Inv layout (m.resume layout c p) := by
  have code := user_trapret layout.pair (m.regs c) m.mem
  have top : m.tf p + TRAPFRAME = m.kstack p + KSTACKSIZE := by
    unfold Machine.tf KSTACKSIZE TRAPFRAME
    omega
  have same : m.resume layout c p =
      { m with
        regs := Function.update m.regs c (run layout.pair trapret (m.regs c, m.mem)).1
        mode := Function.update m.mode c
          (.user p ((run layout.pair trapret (m.regs c, m.mem)).1.sys .elr_el1)
            ((run layout.pair trapret (m.regs c, m.mem)).1.sys .spsr_el1))
        trapped := Function.update m.trapped p none } := by
    change Machine.mk _ _ (run layout.pair trapret (m.regs c, m.mem)).2 _ _ _ _ _ = _
    rw [code.1]
    rfl
  rw [same]
  apply inv.cross
  · rw [mode]
    rfl
  · rfl
  · rw [mode]
    rfl
  · rfl
  · exact inv.running_kernel mode
  · intro p' _ _ user
    cases user
    rw [code.2.1, sp, top]
    exact ⟨rfl, rfl⟩
  · exact fun _ absent => by cases absent
  · exact fun _ absent => by cases absent

/-! ## `swtch` -/

/-- The function that has called `swtch` gets back what it relies on. -/
structure Resumed (layout : Layout) (m : Machine) (c : Cpu) (t : Thread) (f : Frozen) : Prop where
  sp : (m.regs c).sp = f.sp
  callee : ∀ i, callee (m.regs c) i = f.callee i
  mem : ∀ addr, f.sp ≤ addr → addr < m.top layout t → m.mem addr = f.mem addr

section Switch

variable {old new : Thread} {f : Frozen}

theorem arguments_x : (m.arguments layout c old new).x =
    Function.update (Function.update (m.regs c).x 0 (UInt64.ofNat (layout.field old))) 1
      (m.mem (layout.field new)) :=
  rfl

theorem arguments_old (valid : layout.Valid) :
    ((m.arguments layout c old new).x 0).toNat = layout.field old := by
  have place := valid.field old
  have small := valid.small
  rw [arguments_x, Function.update_of_ne (by decide), Function.update_self,
    UInt64.toNat_ofNat']
  omega

/-- What `swtch` changes in memory: the old stack and the pointer to it. -/
theorem swtch_mem {addr : Nat} (valid : layout.Valid) :
    (run layout.pair swtch (m.arguments layout c old new, m.mem)).2 addr =
      if addr = layout.field old then UInt64.ofNat ((m.regs c).sp - CONTEXT)
      else pushAll m.mem (m.regs c).sp (contextPairs (m.arguments layout c old new)) addr := by
  rw [(run_swtch _ _ _).1, arguments_old valid, Function.update_apply]
  rfl

theorem swtch_other {addr : Nat} (valid : layout.Valid)
    (room : m.bottom layout old + CONTEXT ≤ (m.regs c).sp) (field : addr ≠ layout.field old)
    (outside : addr < (m.regs c).sp - CONTEXT ∨ (m.regs c).sp ≤ addr) :
    (run layout.pair swtch (m.arguments layout c old new, m.mem)).2 addr = m.mem addr := by
  rw [swtch_mem valid, if_neg field]
  apply pushAll_other outside
  change CONTEXT ≤ (m.regs c).sp
  omega

/-- The new context is not touched by what is written of the old one. -/
theorem Inv.swtch_suspended {t : Thread} (new : Thread) (valid : layout.Valid) (inv : Inv layout m)
    (busy : ¬ Idle m old) (live : Live m old)
    (room : m.bottom layout old + CONTEXT ≤ (m.regs c).sp)
    (below : (m.regs c).sp ≤ m.top layout old)
    (idle : Idle m t) (suspended : Suspended layout m t f) :
    (∀ addr, f.sp - CONTEXT ≤ addr → addr < m.top layout t →
      (run layout.pair swtch (m.arguments layout c old new, m.mem)).2 addr = m.mem addr) ∧
    (run layout.pair swtch (m.arguments layout c old new, m.mem)).2 (layout.field t) =
      m.mem (layout.field t) := by
  have other : t ≠ old := fun same => busy (same ▸ idle)
  have inside := suspended.room
  constructor
  · intro addr first last
    apply swtch_other valid room
    · rintro rfl
      rcases inv.field_outside valid idle.1 old with low | high <;> omega
    · by_contra within
      rw [not_or, not_lt, not_le] at within
      apply other
      apply inv.separate valid idle.1 live _ last
      · show m.bottom layout old ≤ addr
        omega
      · omega
      · omega
  · apply swtch_other valid room
    · exact fun same => other (valid.apart _ _ same)
    · rcases inv.field_outside valid live t with low | high <;> omega

/-- `swtch` returns to the function that has called it on the new stack. -/
theorem Inv.resumed {mode : Mode} (valid : layout.Valid) (inv : Inv layout m)
    (busy : ¬ Idle m old) (live : Live m old)
    (room : m.bottom layout old + CONTEXT ≤ (m.regs c).sp)
    (below : (m.regs c).sp ≤ m.top layout old)
    (idle : Idle m new) (suspended : Suspended layout m new f) :
    Resumed layout (m.switch layout c old new mode) c new f := by
  have kept := inv.swtch_suspended new valid busy live room below idle suspended
  have inside := suspended.room
  have under := suspended.below
  have high : m.top layout new ≤ 2 ^ 64 := by
    rcases new with p | c'
    · have page := inv.page p idle.1
      change m.kstack p + KSTACKSIZE - TRAPFRAME ≤ 2 ^ 64
      omega
    · have place := bottom_scheduler valid c'
      have low := valid.field (.scheduler c')
      have small := valid.small
      change layout.stack c' ≤ 2 ^ 64
      omega
  have pointer : ((m.arguments layout c old new).x 1).toNat = f.sp - CONTEXT := by
    rw [arguments_x, Function.update_self, suspended.pointer, UInt64.toNat_ofNat']
    unfold CONTEXT at *
    omega
  have code := run_swtch layout.pair (m.arguments layout c old new) m.mem
  rw [pointer] at code
  have regs : (m.switch layout c old new mode).regs c =
      (run layout.pair swtch (m.arguments layout c old new, m.mem)).1 := Function.update_self ..
  constructor
  · rw [regs, code.2.1]
    omega
  · intro i
    have word := suspended.words i.val (by simp)
    rw [List.getElem_ofFn] at word
    rw [regs, code.2.2.2.2 i, kept.1 _ (Nat.le_add_right ..), word]
    · have bound := i.isLt
      unfold CONTEXT at *
      omega
  · intro addr first last
    have last : addr < m.top layout new := by
      cases new <;> exact last
    exact (kept.1 addr (by omega) last).trans (suspended.same addr first last)

/-- What the old thread leaves. -/
theorem Inv.swtch_saved (valid : layout.Valid) (inv : Inv layout m) (live : Live m old)
    (room : m.bottom layout old + CONTEXT ≤ (m.regs c).sp)
    (below : (m.regs c).sp ≤ m.top layout old) {m' : Machine}
    (bottom : m'.bottom layout old = m.bottom layout old)
    (top : m'.top layout old = m.top layout old)
    (mem : m'.mem = (run layout.pair swtch (m.arguments layout c old new, m.mem)).2) :
    Suspended layout m' old
      { sp := (m.regs c).sp, callee := callee (m.arguments layout c old new), mem := m.mem } := by
  have outside := inv.field_outside valid live old
  constructor
  · rw [bottom]
    exact room
  · rw [top]
    exact below
  · rw [mem, swtch_mem valid, if_pos rfl]
  · have words := swtch_words (m.arguments layout c old new) m.mem
      (show CONTEXT ≤ (m.regs c).sp by omega)
    rw [mem]
    apply words.congr
    intro addr first last
    change (m.regs c).sp - CONTEXT ≤ addr at first
    change addr < (m.regs c).sp - CONTEXT + _ at last
    rw [List.length_ofFn] at last
    rw [swtch_mem valid, if_neg]
    · rfl
    · unfold CONTEXT at *
      omega
  · intro addr first last
    rw [top] at last
    rw [mem]
    apply swtch_other valid room
    · change (m.regs c).sp ≤ addr at first
      omega
    · exact Or.inr first

/-- One thread gives the processor to another one. -/
theorem Inv.switch {mode : Mode} (valid : layout.Valid) (inv : Inv layout m)
    (running : (m.mode c).thread c = old) (live : Live m old) (idle : Idle m new)
    (room : m.bottom layout old + CONTEXT ≤ (m.regs c).sp)
    (below : (m.regs c).sp ≤ m.top layout old) (thread : mode.thread c = new)
    (onStack : mode.onStack c = some new) (kernel : ∀ p pc pstate, mode ≠ .user p pc pstate)
    (owner : ∀ p, mode.owner = some p → (m.mode c).owner = some p ∧ m.state p = .RUNNING) :
    Inv layout (m.switch layout c old new mode) := by
  have busy : ¬ Idle m old := fun idle => idle.2 c running
  have other : old ≠ new := fun same => busy (same ▸ idle)
  have modes : ∀ c', (m.switch layout c old new mode).mode c' =
      if c' = c then mode else m.mode c' := fun c' => Function.update_apply ..
  have regs : ∀ c', c' ≠ c → (m.switch layout c old new mode).regs c' = m.regs c' :=
    fun c' different => Function.update_of_ne different ..
  have owners : ∀ c' p, ((m.switch layout c old new mode).mode c').owner = some p →
      (m.mode c').owner = some p := by
    intro c' p has
    rw [modes] at has
    split at has <;> rename_i here
    · rw [here]
      exact (owner p has).1
    · exact has
  constructor
  · exact inv.page
  · exact inv.apart
  · exact fun c' c'' p first second => inv.once c' c'' p (owners c' p first) (owners c'' p second)
  · intro c' p has
    have had := owners c' p has
    rw [modes] at has ⊢
    split at has <;> rename_i here
    · exact Or.inl (owner p has).2
    · rw [if_neg here]
      exact inv.running c' p had
  · intro c' p pc pstate has
    rw [modes] at has
    split at has <;> rename_i here
    · exact absurd has (kernel p pc pstate)
    · rw [regs c' here]
      exact inv.user c' p pc pstate has
  · intro c' t has
    rw [modes] at has
    split at has <;> rename_i here
    · rw [here, onStack] at has
      cases has
      rcases inv.idle new idle with ⟨f, saved, suspended⟩
      have resumed : Resumed layout (m.switch layout c old new mode) c new f :=
        inv.resumed valid busy live room below idle suspended
      have first := suspended.room
      have last := suspended.below
      rw [here, resumed.sp]
      have ends : (m.switch layout c old new mode).bottom layout new = m.bottom layout new ∧
          (m.switch layout c old new mode).top layout new = m.top layout new := by
        cases new <;> exact ⟨rfl, rfl⟩
      rw [ends.1, ends.2]
      omega
    · rw [regs c' here]
      have was := inv.stack c' t has
      cases t <;> exact was
  · rintro t ⟨alive, away⟩
    have ends : (m.switch layout c old new mode).bottom layout t = m.bottom layout t ∧
        (m.switch layout c old new mode).top layout t = m.top layout t := by
      cases t <;> exact ⟨rfl, rfl⟩
    have notNew : t ≠ new := by
      rintro rfl
      apply away c
      rw [modes, if_pos rfl]
      exact thread
    have saved : (m.switch layout c old new mode).saved t =
        if t = old then
          some ⟨(m.regs c).sp, callee (m.arguments layout c old new), m.mem⟩
        else m.saved t := by
      change Function.update (Function.update m.saved old _) new none t = _
      rw [Function.update_of_ne notNew, Function.update_apply]
      rfl
    rw [saved]
    by_cases here : t = old
    · subst here
      rw [if_pos rfl]
      exact ⟨_, rfl, inv.swtch_saved valid live room below ends.1 ends.2 rfl⟩
    · rw [if_neg here]
      have idle' : Idle m t := by
        constructor
        · cases t <;> exact alive
        · intro c' same
          have elsewhere := away c'
          rw [modes] at elsewhere
          split at elsewhere <;> rename_i which
          · rw [which, running] at same
            exact here same.symm
          · exact elsewhere same
      rcases inv.idle t idle' with ⟨f, saved', suspended⟩
      have kept := inv.swtch_suspended new valid busy live room below idle' suspended
      exact ⟨f, saved', suspended.congr ends.1 ends.2 kept.2 kept.1⟩
  · exact inv.fresh
  · intro p t alive has q
    have frame : Trapframe.load
        (run layout.pair swtch (m.arguments layout c old new, m.mem)).2 (m.tf p) =
        Trapframe.load m.mem (m.tf p) := by
      have page := inv.page p alive
      have top : m.tf p + TRAPFRAME = m.kstack p + KSTACKSIZE := by
        unfold Machine.tf KSTACKSIZE TRAPFRAME
        omega
      apply Trapframe.load_congr
      intro addr first last
      apply swtch_other valid room
      · have place := valid.field old
        unfold KSTACKSIZE TRAPFRAME at *
        omega
      · by_contra within
        rw [not_or, not_lt, not_le] at within
        have low : m.bottom layout old ≤ addr := by omega
        have high : addr < m.top layout old := by omega
        exact inv.frame_outside valid live alive low high first (by omega)
    change Kept layout t ((Trapframe.load (run layout.pair swtch _).2 (m.tf p)).user layout.pair q)
    rw [frame]
    exact inv.frames p t alive has q

end Switch

/-! ## New processes -/

theorem newStack_outside {kstack addr : Nat} {page : Mem}
    (outside : addr < kstack ∨ kstack + KSTACKSIZE ≤ addr) :
    m.newStack layout kstack page addr = m.mem addr := by
  unfold Machine.newStack
  rw [if_pos outside]

section Alloc

variable {p : Pid} {kstack : Nat} {page : Mem}

theorem alloc_mem {addr : Nat} (outside : addr < kstack ∨ kstack + KSTACKSIZE ≤ addr)
    (field : addr ≠ layout.field (.proc p)) :
    (m.alloc layout p kstack page).mem addr = m.mem addr := by
  change Function.update _ _ _ addr = _
  rw [Function.update_of_ne field, newStack_outside outside]

/-- The first context of a process, which leads to `forkret`. -/
theorem alloc_suspended (valid : layout.Valid) (above : layout.heap ≤ kstack) :
    ∃ f, (m.alloc layout p kstack page).saved (.proc p) = some f ∧
      Suspended layout (m.alloc layout p kstack page) (.proc p) f := by
  have place := valid.field (.proc p)
  have bottom : (m.alloc layout p kstack page).bottom layout (.proc p) = kstack :=
    Function.update_self ..
  have top : (m.alloc layout p kstack page).top layout (.proc p) =
      kstack + KSTACKSIZE - TRAPFRAME := by
    change Function.update m.kstack p kstack p + KSTACKSIZE - TRAPFRAME = _
    rw [Function.update_self]
  have mem : ∀ addr, addr ≠ layout.field (.proc p) →
      (m.alloc layout p kstack page).mem addr = m.newStack layout kstack page addr :=
    fun addr other => Function.update_of_ne other ..
  refine ⟨_, Function.update_self .., ?_⟩
  constructor
  · rw [bottom]
    change kstack + CONTEXT ≤ kstack + KSTACKSIZE - TRAPFRAME - 16
    unfold CONTEXT KSTACKSIZE TRAPFRAME
    omega
  · rw [top]
    exact Nat.sub_le ..
  · exact Function.update_self ..
  · intro i below
    change (m.alloc layout p kstack page).mem
      (kstack + KSTACKSIZE - TRAPFRAME - 16 - CONTEXT + 8 * i) = _
    rw [List.getElem_ofFn, mem]
    unfold CONTEXT KSTACKSIZE TRAPFRAME
    omega
  · intro addr first last
    change kstack + KSTACKSIZE - TRAPFRAME - 16 ≤ addr at first
    apply mem
    unfold KSTACKSIZE TRAPFRAME at first
    omega

theorem Inv.alloc (valid : layout.Valid) (inv : Inv layout m) (unused : m.state p = .UNUSED)
    (free : m.freePage layout kstack = true) : Inv layout (m.alloc layout p kstack page) := by
  unfold Machine.freePage at free
  rw [decide_eq_true_eq] at free
  rcases free with ⟨aligned, above, high, apart⟩
  have unowned : ∀ c', (m.mode c').owner ≠ some p := by
    apply inv.unowned (c := ⟨0, by decide⟩)
    · rw [unused]
      exact ProcState.noConfusion
    · exact Or.inr (Or.inr (Or.inr unused))
  have kstacks : ∀ p', (m.alloc layout p kstack page).kstack p' =
      if p' = p then kstack else m.kstack p' := fun p' => Function.update_apply ..
  have states : ∀ p', (m.alloc layout p kstack page).state p' =
      if p' = p then .EMBRYO else m.state p' := fun p' => Function.update_apply ..
  have trapped : ∀ p', (m.alloc layout p kstack page).trapped p' =
      if p' = p then none else m.trapped p' := fun p' => Function.update_apply ..
  have alive : ∀ p', p' ≠ p → (m.alloc layout p kstack page).state p' ≠ .UNUSED →
      m.state p' ≠ .UNUSED := by
    intro p' other alive
    rwa [states, if_neg other] at alive
  -- The new page is none of a process that exists.
  have outside : ∀ p' addr, m.state p' ≠ .UNUSED → m.kstack p' ≤ addr →
      addr < m.kstack p' + KSTACKSIZE → addr < kstack ∨ kstack + KSTACKSIZE ≤ addr := by
    intro p' addr live first last
    have page := inv.page p' live
    have different := (apart p').resolve_left live
    unfold KSTACKSIZE at *
    omega
  have same : ∀ t, t ≠ .proc p →
      (m.alloc layout p kstack page).bottom layout t = m.bottom layout t ∧
        (m.alloc layout p kstack page).top layout t = m.top layout t := by
    intro t other
    rcases t with p' | c'
    · have different : p' ≠ p := fun here => other (here ▸ rfl)
      change (m.alloc layout p kstack page).kstack p' = m.kstack p' ∧
        (m.alloc layout p kstack page).kstack p' + KSTACKSIZE - TRAPFRAME =
          m.kstack p' + KSTACKSIZE - TRAPFRAME
      rw [kstacks, if_neg different]
      exact ⟨rfl, rfl⟩
    · exact ⟨rfl, rfl⟩
  constructor
  · intro p' live
    rw [kstacks]
    split <;> rename_i here
    · exact ⟨above, aligned, high⟩
    · exact inv.page p' (alive p' here live)
  · intro p' p'' live live' equal
    rw [kstacks, kstacks] at equal
    split at equal <;> split at equal <;> rename_i here here'
    · rw [here, here']
    · exact absurd equal.symm ((apart p'').resolve_left (alive p'' here' live'))
    · exact absurd equal ((apart p').resolve_left (alive p' here live))
    · exact inv.apart p' p'' (alive p' here live) (alive p'' here' live') equal
  · exact inv.once
  · intro c' p' owner
    have other : p' ≠ p := fun here => unowned c' (here ▸ owner)
    rw [states, if_neg other]
    exact inv.running c' p' owner
  · intro c' p' pc pstate user
    have other : p' ≠ p := by
      rintro rfl
      apply unowned c'
      rw [show m.mode c' = _ from user]
      rfl
    rw [kstacks, if_neg other, trapped, if_neg other]
    exact inv.user c' p' pc pstate user
  · intro c' t onStack
    have other : t ≠ .proc p := by
      rintro rfl
      apply unowned c'
      change (m.mode c').onStack c' = _ at onStack
      generalize m.mode c' = mode at onStack
      cases mode <;> cases onStack <;> rfl
    rw [(same t other).1, (same t other).2]
    exact inv.stack c' t onStack
  · rintro t ⟨live, away⟩
    by_cases here : t = .proc p
    · rw [here]
      exact alloc_suspended valid above
    · have idle : Idle m t := by
        refine ⟨?_, away⟩
        rcases t with p' | c'
        · exact alive p' (fun same => here (same ▸ rfl)) live
        · trivial
      rcases inv.idle t idle with ⟨f, saved, suspended⟩
      have room := suspended.room
      refine ⟨f, (Function.update_of_ne here ..).trans saved, ?_⟩
      apply suspended.congr (same t here).1 (same t here).2
      · apply alloc_mem
        · have place := valid.field t
          omega
        · exact fun equal => here (valid.apart _ _ equal)
      · intro addr first last
        apply alloc_mem
        · rcases t with p' | c'
          · apply outside p' addr idle.1
            · change m.kstack p' + CONTEXT ≤ f.sp at room
              omega
            · change addr < m.kstack p' + KSTACKSIZE - TRAPFRAME at last
              omega
          · have stack := bottom_scheduler valid c'
            have place := valid.field (.scheduler c')
            change addr < layout.stack c' at last
            omega
        · rintro rfl
          rcases inv.field_outside valid idle.1 (.proc p) with low | high <;> omega
  · intro p' embryo
    rw [states] at embryo
    rw [trapped]
    split at embryo <;> rename_i here
    · rw [if_pos here]
    · rw [if_neg here]
      exact inv.fresh p' embryo
  · intro p' t live has q
    rw [trapped] at has
    split at has <;> rename_i here
    · cases has
    · have live' := alive p' here live
      have place := inv.page p' live'
      have field := valid.field (.proc p)
      have tf : (m.alloc layout p kstack page).tf p' = m.tf p' := by
        unfold Machine.tf
        rw [kstacks, if_neg here]
      have frame : Trapframe.load (m.alloc layout p kstack page).mem (m.tf p') =
          Trapframe.load m.mem (m.tf p') := by
        apply Trapframe.load_congr
        intro addr first last
        simp only [Machine.tf, KSTACKSIZE, TRAPFRAME] at first last
        apply alloc_mem
        · apply outside p' addr live'
          · omega
          · unfold KSTACKSIZE
            omega
        · omega
      rw [tf, frame]
      exact inv.frames p' t live' has q

end Alloc

end PiKernel.Trap
