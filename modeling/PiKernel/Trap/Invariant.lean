import PiKernel.Trap.Processes

/-!
# The stacks of the threads

Every thread that does not run has left its context on its stack, and a process in the
kernel has its registers in the trap frame.  The stacks are apart, so what one thread
does keeps the others as they are.
-/

namespace PiKernel.Trap

/-! ## What a trap keeps -/

/-- The number of the system call. -/
def Trapped.sysno (layout : Layout) (t : Trapped) : Option Sysno :=
  layout.sysno (t.user.x 8).toUInt32

/-- It is a call of `execve`. -/
def Trapped.execs (layout : Layout) (t : Trapped) : Prop :=
  t.cause = .svc 0 ∧ t.sysno layout = some .execve

/-- It is a call of `execve` that has written `tf->r1`. -/
def Trapped.argues (layout : Layout) (t : Trapped) : Prop :=
  t.execs layout ∧ (t.stage = .argv ∨ t.stage = .image)

/-- It is a call of `execve` that succeeds. -/
def Trapped.replaces (layout : Layout) (t : Trapped) : Prop :=
  t.execs layout ∧ t.stage = .image

/--
The registers of a process after a trap: all but `q1` to `q31` are as they were, except for
the result of a system call and for what `execve` sets.  `TPIDR_EL0` is loaded by
`ldp x12, x12`.
-/
structure Kept (layout : Layout) (t : Trapped) (after : User) : Prop where
  x : ∀ i, i ≠ 0 → (i = 1 → ¬ t.argues layout) → after.x i = t.user.x i
  q0 : after.q 0 = t.user.q 0
  sp_el0 : ¬ t.replaces layout → after.sp_el0 = t.user.sp_el0
  tpidr_el0 : (∀ word, layout.pair word word = word) → after.tpidr_el0 = t.user.tpidr_el0
  pc : ¬ t.replaces layout → after.pc = t.user.pc
  pstate : after.pstate = t.user.pstate
  x0 : t.cause ≠ .svc 0 → after.x 0 = t.user.x 0
  result : ∀ value, t.cause = .svc 0 → t.sysno layout ≠ some .ioctl → t.result = some value →
    after.x 0 = value
  /-- An `execve` that does not succeed returns -1. -/
  failed : ∀ value, t.execs layout → ¬ t.replaces layout → t.result = some value → value = -1

/-- The registers in a trap frame. -/
def Trapframe.user (pair : Pair) (frame : Trapframe) (q : Fin 32 → UInt64 × UInt64) :
    User where
  x := frame.r
  q := Function.update q 0 frame.q0
  sp_el0 := frame.sp
  tpidr_el0 := pair frame.tpidr frame.tpidr_copy
  pc := frame.elr
  pstate := frame.spsr

/-! ## The invariant -/

/-- The process that is on a processor. -/
def Mode.owner : Mode → Option Pid
  | .user p _ _ => some p
  | .kernel p => some p
  | .leaving p => some p
  | .scheduler => none
  | .choosing p => some p

/-- The thread that a processor executes. -/
def Mode.thread (c : Cpu) : Mode → Thread
  | .user p _ _ => .proc p
  | .kernel p => .proc p
  | .leaving p => .proc p
  | .scheduler => .scheduler c
  | .choosing _ => .scheduler c

/-- The thread, if it uses its stack as C code does. -/
def Mode.onStack (c : Cpu) : Mode → Option Thread
  | .user _ _ _ => none
  | .kernel p => some (.proc p)
  | .leaving p => some (.proc p)
  | .scheduler => some (.scheduler c)
  | .choosing _ => some (.scheduler c)

/-- The thread exists. -/
def Live (m : Machine) : Thread → Prop
  | .proc p => m.state p ≠ .UNUSED
  | .scheduler _ => True

/-- The thread exists and waits for its next turn. -/
def Idle (m : Machine) (t : Thread) : Prop :=
  Live m t ∧ ∀ c, (m.mode c).thread c ≠ t

variable {layout : Layout} {m : Machine}

/-- The stack of a function that has called `swtch` is as it was. -/
structure Suspended (layout : Layout) (m : Machine) (t : Thread) (f : Frozen) : Prop where
  room : m.bottom layout t + CONTEXT ≤ f.sp
  below : f.sp ≤ m.top layout t
  pointer : m.mem (layout.field t) = UInt64.ofNat (f.sp - CONTEXT)
  words : Words m.mem (f.sp - CONTEXT) (List.ofFn f.callee)
  same : ∀ addr, f.sp ≤ addr → addr < m.top layout t → m.mem addr = f.mem addr

structure Inv (layout : Layout) (m : Machine) : Prop where
  page : ∀ p, m.state p ≠ .UNUSED →
    layout.heap ≤ m.kstack p ∧ KSTACKSIZE ∣ m.kstack p ∧ m.kstack p + KSTACKSIZE ≤ 2 ^ 64
  apart : ∀ p p', m.state p ≠ .UNUSED → m.state p' ≠ .UNUSED → m.kstack p = m.kstack p' →
    p = p'
  once : ∀ c c' p, (m.mode c).owner = some p → (m.mode c').owner = some p → c = c'
  running : ∀ c p, (m.mode c).owner = some p →
    m.state p = .RUNNING ∨ m.mode c = .leaving p ∧ m.lock = some c ∧
      (m.state p = .RUNNABLE ∨ m.state p = .SLEEPING ∨ m.state p = .ZOMBIE)
  user : ∀ c p pc pstate, m.mode c = .user p pc pstate →
    (m.regs c).sp = m.kstack p + KSTACKSIZE ∧ m.trapped p = none
  stack : ∀ c t, (m.mode c).onStack c = some t →
    m.bottom layout t ≤ (m.regs c).sp ∧ (m.regs c).sp ≤ m.top layout t
  idle : ∀ t, Idle m t → ∃ f, m.saved t = some f ∧ Suspended layout m t f
  fresh : ∀ p, m.state p = .EMBRYO → m.trapped p = none
  frames : ∀ p t, m.state p ≠ .UNUSED → m.trapped p = some t → ∀ q,
    Kept layout t ((Trapframe.load m.mem (m.tf p)).user layout.pair q)

/-! ## Where things are -/

section Places

variable (valid : layout.Valid)

include valid

theorem bottom_scheduler (c : Cpu) :
    layout.stack c - KSTACKSIZE + KSTACKSIZE = layout.stack c ∧
      layout.stack c + c * KSTACKSIZE = layout.start := by
  have low := valid.low
  have index := c.isLt
  unfold Layout.stack
  unfold NCPU KSTACKSIZE at *
  omega

/-- The stacks of two threads do not meet. -/
theorem Inv.separate {t t' : Thread} {addr : Nat} (inv : Inv layout m) (live : Live m t)
    (live' : Live m t') (first : m.bottom layout t ≤ addr) (last : addr < m.top layout t)
    (first' : m.bottom layout t' ≤ addr) (last' : addr < m.top layout t') : t = t' := by
  rcases t with p | c <;> rcases t' with p' | c'
  · have page := inv.page p live
    have page' := inv.page p' live'
    have same : m.kstack p = m.kstack p' := by
      simp only [Machine.bottom, Machine.top, Machine.tf, KSTACKSIZE, TRAPFRAME] at *
      omega
    rw [inv.apart p p' live live' same]
  · have page := inv.page p live
    have place := bottom_scheduler valid c'
    have above := (valid.field (.scheduler c')).1
    have within := (valid.field (.scheduler c')).2
    simp only [Machine.bottom, Machine.top, Machine.tf, KSTACKSIZE, TRAPFRAME] at *
    omega
  · have page := inv.page p' live'
    have place := bottom_scheduler valid c
    have above := (valid.field (.scheduler c)).1
    have within := (valid.field (.scheduler c)).2
    simp only [Machine.bottom, Machine.top, Machine.tf, KSTACKSIZE, TRAPFRAME] at *
    omega
  · have place := bottom_scheduler valid c
    have place' := bottom_scheduler valid c'
    have same : c.val = c'.val := by
      simp only [Machine.bottom, Machine.top, KSTACKSIZE] at *
      omega
    rw [Fin.ext same]

/-- No field is on a stack. -/
theorem Inv.field_outside {t : Thread} (inv : Inv layout m) (live : Live m t) (s : Thread) :
    layout.field s < m.bottom layout t ∨ m.top layout t ≤ layout.field s := by
  have place := valid.field s
  rcases t with p | c
  · have page := inv.page p live
    change layout.field s < m.kstack p ∨ _
    omega
  · have stack := bottom_scheduler valid c
    change _ ∨ layout.stack c ≤ layout.field s
    omega

/-- No trap frame is where C functions have their stack. -/
theorem Inv.frame_outside {t : Thread} {p : Pid} {addr : Nat} (inv : Inv layout m)
    (live : Live m t) (live' : m.state p ≠ .UNUSED) (first : m.bottom layout t ≤ addr)
    (last : addr < m.top layout t) (frame : m.tf p ≤ addr)
    (inside : addr < m.kstack p + KSTACKSIZE) : False := by
  have page := inv.page p live'
  rcases t with p' | c
  · have page' := inv.page p' live
    have same : m.kstack p' = m.kstack p := by
      simp only [Machine.bottom, Machine.top, Machine.tf, KSTACKSIZE, TRAPFRAME] at *
      omega
    simp only [Machine.bottom, Machine.top, Machine.tf, KSTACKSIZE, TRAPFRAME] at *
    omega
  · have place := bottom_scheduler valid c
    have low := (valid.field (.scheduler c)).1
    have high := (valid.field (.scheduler c)).2
    simp only [Machine.bottom, Machine.top, Machine.tf, KSTACKSIZE, TRAPFRAME] at *
    omega

end Places

/-! ## Changes of memory -/

/-- The addresses whose contents matter. -/
inductive Protected (layout : Layout) (m : Machine) (addr : Nat) : Prop where
  | field (t : Thread) (here : addr = layout.field t)
  | suspended (t : Thread) (f : Frozen) (idle : Idle m t) (saved : m.saved t = some f)
      (first : f.sp - CONTEXT ≤ addr) (last : addr < m.top layout t)
  | frame (p : Pid) (live : m.state p ≠ .UNUSED) (trapped : m.trapped p ≠ none)
      (first : m.tf p ≤ addr) (last : addr < m.kstack p + KSTACKSIZE)

theorem Trapframe.load_congr {mem mem' : Mem} {tf : Nat}
    (same : ∀ addr, tf ≤ addr → addr < tf + TRAPFRAME → mem' addr = mem addr) :
    Trapframe.load mem' tf = Trapframe.load mem tf := by
  unfold TRAPFRAME at same
  unfold Trapframe.load
  congr 1
  · rw [same _ (by omega) (by omega), same _ (by omega) (by omega)]
  · exact same _ (by omega) (by omega)
  · exact same _ (by omega) (by omega)
  · exact same _ (by omega) (by omega)
  · exact same _ (by omega) (by omega)
  · exact same _ (by omega) (by omega)
  · funext i
    unfold offset
    exact same _ (by omega) (by omega)

theorem Suspended.congr {m' : Machine} {t : Thread} {f : Frozen}
    (suspended : Suspended layout m t f) (bottom : m'.bottom layout t = m.bottom layout t)
    (top : m'.top layout t = m.top layout t)
    (field : m'.mem (layout.field t) = m.mem (layout.field t))
    (same : ∀ addr, f.sp - CONTEXT ≤ addr → addr < m.top layout t → m'.mem addr = m.mem addr) :
    Suspended layout m' t f := by
  have room := suspended.room
  have below := suspended.below
  constructor
  · rw [bottom]
    exact room
  · rw [top]
    exact below
  · rw [field]
    exact suspended.pointer
  · apply suspended.words.congr
    intro addr first last
    simp only [List.length_ofFn] at last
    unfold CONTEXT at *
    exact same addr first (by omega)
  · intro addr first last
    rw [top] at last
    rw [same addr (by omega) last]
    exact suspended.same addr first last

/-- Nothing that matters is overwritten. -/
theorem Inv.memory {mem : Mem} (inv : Inv layout m)
    (same : ∀ addr, Protected layout m addr → mem addr = m.mem addr) :
    Inv layout { m with mem := mem } := by
  constructor
  · exact inv.page
  · exact inv.apart
  · exact inv.once
  · exact inv.running
  · exact inv.user
  · exact inv.stack
  · intro t idle
    rcases inv.idle t idle with ⟨f, saved, suspended⟩
    refine ⟨f, saved, suspended.congr rfl rfl ?_ ?_⟩
    · exact same _ (.field t rfl)
    · exact fun addr first last => same addr (.suspended t f idle saved first last)
  · exact inv.fresh
  · intro p t live trapped q
    have frame : Trapframe.load mem (m.tf p) = Trapframe.load m.mem (m.tf p) := by
      apply Trapframe.load_congr
      intro addr first last
      apply same
      have some : m.trapped p ≠ none := trapped ▸ Option.some_ne_none t
      refine Protected.frame p (show m.state p ≠ .UNUSED from live) some first ?_
      unfold Machine.tf TRAPFRAME KSTACKSIZE at *
      omega
    change Kept layout t ((Trapframe.load mem (m.tf p)).user layout.pair q)
    rw [frame]
    exact inv.frames p t live trapped q

/-- The stack of a thread that runs is its own. -/
theorem Inv.own_stack {t : Thread} {addr : Nat} (valid : layout.Valid) (inv : Inv layout m)
    (live : Live m t) (busy : ¬ Idle m t) (first : m.bottom layout t ≤ addr)
    (last : addr < m.top layout t) : ¬ Protected layout m addr := by
  rintro (⟨s, here⟩ | ⟨s, f, idle, saved, low, high⟩ | ⟨p, live', _, low, high⟩)
  · have outside := inv.field_outside valid live s
    omega
  · rcases inv.idle s idle with ⟨f', saved', suspended⟩
    rw [saved] at saved'
    cases saved'
    have room := suspended.room
    have same := inv.separate valid live idle.1 first last (by omega) high
    rw [same] at busy
    exact busy idle
  · exact inv.frame_outside valid live live' first last low high

/-- The frame of a process that is in no trap is free. -/
theorem Inv.own_frame {p : Pid} {addr : Nat} (valid : layout.Valid) (inv : Inv layout m)
    (live : m.state p ≠ .UNUSED) (free : m.trapped p = none) (first : m.tf p ≤ addr)
    (last : addr < m.kstack p + KSTACKSIZE) : ¬ Protected layout m addr := by
  rintro (⟨s, here⟩ | ⟨s, f, idle, saved, low, high⟩ | ⟨p', live', trapped, low, high⟩)
  · have place := valid.field s
    have page := inv.page p live
    unfold Machine.tf at first
    unfold KSTACKSIZE TRAPFRAME at *
    omega
  · rcases inv.idle s idle with ⟨f', saved', suspended⟩
    rw [saved] at saved'
    cases saved'
    have room := suspended.room
    exact inv.frame_outside valid idle.1 live (by omega) high first last
  · have page := inv.page p live
    have page' := inv.page p' live'
    have same : m.kstack p = m.kstack p' := by
      unfold Machine.tf at *
      unfold KSTACKSIZE TRAPFRAME at *
      omega
    rw [inv.apart p p' live live' same] at free
    exact trapped free

end PiKernel.Trap
