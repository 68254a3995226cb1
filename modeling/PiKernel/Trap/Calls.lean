import PiKernel.Trap.Steps

/-!
# System calls

A system call changes the trap frame of its process: `syscall1` stores the result, and
`execve` writes the registers that the new image begins with, two of them before it can
still fail.
-/

namespace PiKernel.Trap

-- The code is used by what it does and not executed.
attribute [local irreducible] run

variable {layout : Layout} {m : Machine} {c : Cpu} {p : Pid}

/-! ## The own trap frame -/

/-- A process in the kernel writes its own trap frame. -/
theorem Inv.setFrame {mem : Mem} {t t' : Trapped} (valid : layout.Valid) (inv : Inv layout m)
    (mode : m.mode c = .kernel p) (trapped : m.trapped p = some t)
    (same : ∀ addr, addr < m.tf p ∨ m.kstack p + KSTACKSIZE ≤ addr → mem addr = m.mem addr)
    (frame : ∀ q, Kept layout t' ((Trapframe.load mem (m.tf p)).user layout.pair q)) :
    Inv layout { m with mem := mem, trapped := Function.update m.trapped p (some t') } := by
  have running := inv.running_kernel mode
  have live : m.state p ≠ .UNUSED := by
    rw [running]
    decide
  have place := inv.page p live
  have others : ∀ p', p' ≠ p → Function.update m.trapped p (some t') p' = m.trapped p' :=
    fun p' other => Function.update_of_ne other ..
  constructor
  · exact inv.page
  · exact inv.apart
  · exact inv.once
  · exact inv.running
  · intro c' p' pc pstate user
    have old := inv.user c' p' pc pstate user
    refine ⟨old.1, ?_⟩
    change Function.update m.trapped p (some t') p' = none
    rw [others]
    · exact old.2
    · rintro rfl
      rw [trapped] at old
      cases old.2
  · intro c' t onStack
    have old := inv.stack c' t onStack
    cases t <;> exact old
  · intro t idle
    have idle : Idle m t := by
      refine ⟨?_, idle.2⟩
      cases t
      · exact idle.1
      · trivial
    rcases inv.idle t idle with ⟨f, saved, suspended⟩
    have room := suspended.room
    refine ⟨f, saved, suspended.congr (by cases t <;> rfl) (by cases t <;> rfl) ?_ ?_⟩
    · apply same
      have field := valid.field t
      simp only [Machine.tf, KSTACKSIZE, TRAPFRAME] at *
      omega
    · intro addr first last
      apply same
      by_contra inside
      rw [not_or, not_lt, not_le] at inside
      exact inv.frame_outside valid idle.1 live (by omega) last inside.1 inside.2
  · intro p' embryo
    change Function.update m.trapped p (some t') p' = none
    rw [others]
    · exact inv.fresh p' embryo
    · rintro rfl
      change m.state p' = _ at embryo
      rw [running] at embryo
      cases embryo
  · intro p' t'' alive has q
    change Function.update m.trapped p (some t') p' = some t'' at has
    change Kept layout t'' ((Trapframe.load mem (m.tf p')).user layout.pair q)
    by_cases here : p' = p
    · subst here
      rw [Function.update_self] at has
      cases has
      exact frame q
    · rw [others p' here] at has
      have place' := inv.page p' alive
      have apart : m.kstack p' ≠ m.kstack p :=
        fun equal => here (inv.apart p' p alive live equal)
      have old : Trapframe.load mem (m.tf p') = Trapframe.load m.mem (m.tf p') := by
        apply Trapframe.load_congr
        intro addr first last
        apply same
        simp only [Machine.tf, KSTACKSIZE, TRAPFRAME] at *
        omega
      rw [old]
      exact inv.frames p' t'' alive has q

/-- A frame, one word of which is another one. -/
theorem load_store {mem : Mem} {tf : Nat} {i : Fin 31} {value : UInt64} :
    Trapframe.load (Function.update mem (tf + offset i) value) tf =
      { Trapframe.load mem tf with
        r := Function.update (Trapframe.load mem tf).r i value } := by
  have other : ∀ k, k < 56 → Function.update mem (tf + offset i) value (tf + k) =
      mem (tf + k) := by
    intro k below
    apply Function.update_of_ne
    unfold offset
    omega
  unfold Trapframe.load
  congr 1
  · exact Prod.ext (other 0 (by decide)) (other 8 (by decide))
  · exact other 16 (by decide)
  · exact other 24 (by decide)
  · exact other 32 (by decide)
  · exact other 40 (by decide)
  · exact other 48 (by decide)
  · funext j
    rw [Function.update_apply, Function.update_apply]
    by_cases here : j = i
    · rw [if_pos here, if_pos (by rw [here])]
    · rw [if_neg here, if_neg]
      unfold offset
      omega

theorem load_store_sp {mem : Mem} {tf : Nat} {value : UInt64} :
    Trapframe.load (Function.update mem (tf + 48) value) tf =
      { Trapframe.load mem tf with sp := value } := by
  have other : ∀ k, k ≠ 48 → Function.update mem (tf + 48) value (tf + k) = mem (tf + k) := by
    intro k different
    apply Function.update_of_ne
    omega
  unfold Trapframe.load
  congr 1
  · exact Prod.ext (other 0 (by decide)) (other 8 (by decide))
  · exact other 16 (by decide)
  · exact other 24 (by decide)
  · exact other 32 (by decide)
  · exact other 40 (by decide)
  · exact Function.update_self ..
  · funext j
    apply other
    unfold offset
    omega

theorem load_store_elr {mem : Mem} {tf : Nat} {value : UInt64} :
    Trapframe.load (Function.update mem (tf + 32) value) tf =
      { Trapframe.load mem tf with elr := value } := by
  have other : ∀ k, k ≠ 32 → Function.update mem (tf + 32) value (tf + k) = mem (tf + k) := by
    intro k different
    apply Function.update_of_ne
    omega
  unfold Trapframe.load
  congr 1
  · exact Prod.ext (other 0 (by decide)) (other 8 (by decide))
  · exact other 16 (by decide)
  · exact other 24 (by decide)
  · exact Function.update_self ..
  · exact other 40 (by decide)
  · exact other 48 (by decide)
  · funext j
    apply other
    unfold offset
    omega

theorem store_outside {addr k : Nat} {mem : Mem} {value : UInt64} (inside : k < TRAPFRAME)
    (outside : addr < m.tf p ∨ m.kstack p + KSTACKSIZE ≤ addr) :
    Function.update mem (m.tf p + k) value addr = mem addr := by
  apply Function.update_of_ne
  simp only [Machine.tf, KSTACKSIZE, TRAPFRAME] at *
  omega

/-! ## The calls -/

theorem calling_eq {t : Trapped} (calling : m.calling p = some t) :
    m.trapped p = some t ∧ t.cause = .svc 0 ∧ t.result = none := by
  unfold Machine.calling at calling
  split at calling
  · split at calling
    · rename_i trapped here
      cases calling
      exact ⟨trapped, here⟩
    · cases calling
  · cases calling

theorem inExecve_eq {t : Trapped} {stage : Stage} (inside : m.inExecve layout p stage = some t) :
    m.calling p = some t ∧ m.sysno layout p = some .execve ∧ t.stage = stage := by
  unfold Machine.inExecve at inside
  split at inside
  · split at inside
    · rename_i calling here
      cases inside
      exact ⟨calling, here⟩
    · cases inside
  · cases inside

/-- The number of the call is still in the frame. -/
theorem Inv.sysno_eq {t : Trapped} (inv : Inv layout m) (live : m.state p ≠ .UNUSED)
    (trapped : m.trapped p = some t) : m.sysno layout p = t.sysno layout := by
  have kept := (inv.frames p t live trapped fun _ => (0, 0)).x 8 (by decide) fun absurd => by
    cases absurd
  unfold Machine.sysno Trapped.sysno
  rw [← kept]
  rfl

/-- The result is stored, but for `ioctl`. -/
theorem Inv.result {t : Trapped} {stored : Bool} (value : UInt64) (valid : layout.Valid)
    (inv : Inv layout m) (mode : m.mode c = .kernel p) (calling : m.calling p = some t)
    (stores : stores (m.sysno layout p) ((Trapframe.load m.mem (m.tf p)).r 1) = some stored)
    (may : m.mayReturn layout p t value = true) :
    Inv layout
      { m with
        mem := if stored then Function.update m.mem (m.tf p + offset 0) value else m.mem
        trapped := Function.update m.trapped p (some { t with result := some value }) } := by
  rcases calling_eq calling with ⟨trapped, cause, none⟩
  have live : m.state p ≠ .UNUSED := by
    rw [inv.running_kernel mode]
    decide
  have kept := inv.frames p t live trapped
  unfold Machine.mayReturn at may
  rw [inv.sysno_eq live trapped] at stores may
  have failed : ∀ value', t.execs layout → ¬ t.replaces layout → some value = some value' →
      value' = -1 := by
    rintro value' execs fails same
    cases same
    have early : t.stage ≠ .image := fun image => fails ⟨execs, image⟩
    rw [execs.2, if_neg early] at may
    simpa using may
  apply inv.setFrame valid mode trapped
  · intro addr outside
    cases stored
    · rfl
    · exact store_outside (by decide) outside
  · intro q
    have kept := kept q
    cases stored
    · have ioctl : t.sysno layout = some .ioctl := by
        generalize t.sysno layout = number at stores
        rcases number with _ | number
        · cases stores
        · cases number <;> first | rfl | cases stores
      constructor
      · exact kept.x
      · exact kept.q0
      · exact kept.sp_el0
      · exact kept.tpidr_el0
      · exact kept.pc
      · exact kept.pstate
      · exact kept.x0
      · exact fun _ _ other => absurd ioctl other
      · exact failed
    · rw [if_pos rfl, load_store]
      constructor
      · intro i other execs
        have kept := kept.x i other execs
        change Function.update (Trapframe.load m.mem (m.tf p)).r 0 value i = _
        rwa [Function.update_of_ne other]
      · exact kept.q0
      · exact kept.sp_el0
      · exact kept.tpidr_el0
      · exact kept.pc
      · exact kept.pstate
      · exact fun other => absurd cause other
      · intro result _ _ returned
        cases returned
        change Function.update (Trapframe.load m.mem (m.tf p)).r 0 value 0 = _
        rw [Function.update_self]
      · exact failed

/-! ## `execve` -/

/-- `execve` gets on with the trap frame. -/
theorem Kept.execve {t : Trapped} {stage : Stage} {after after' : User}
    (kept : Kept layout t after) (execs : t.execs layout) (none : t.result = none)
    (x : ∀ i, i ≠ 0 → (i = 1 → stage ≠ .argv ∧ stage ≠ .image) → after'.x i = t.user.x i)
    (q0 : after'.q 0 = after.q 0) (tpidr_el0 : after'.tpidr_el0 = after.tpidr_el0)
    (pstate : after'.pstate = after.pstate)
    (early : stage ≠ .image → after'.sp_el0 = t.user.sp_el0 ∧ after'.pc = t.user.pc) :
    Kept layout { t with stage := stage } after' := by
  have fails : ∀ {old : Stage}, ¬ Trapped.replaces layout { t with stage := old } →
      old ≠ .image := fun fails image => fails ⟨execs, image⟩
  constructor
  · intro i other first
    apply x i other
    intro one
    have notYet := first one
    exact ⟨fun argv => notYet ⟨execs, Or.inl argv⟩, fun image => notYet ⟨execs, Or.inr image⟩⟩
  · exact q0.trans kept.q0
  · exact fun notYet => (early (fails notYet)).1
  · exact fun same => tpidr_el0.trans (kept.tpidr_el0 same)
  · exact fun notYet => (early (fails notYet)).2
  · exact pstate.trans kept.pstate
  · exact fun other => absurd execs.1 other
  · intro value _ _ returned
    rw [none] at returned
    cases returned
  · intro value _ _ returned
    rw [none] at returned
    cases returned

section Execve

variable {t : Trapped} {stage : Stage}

/-- A process in `execve` writes its trap frame. -/
theorem Inv.execve {next : Stage} {mem : Mem} (valid : layout.Valid) (inv : Inv layout m)
    (mode : m.mode c = .kernel p) (inside : m.inExecve layout p stage = some t)
    (same : ∀ addr, addr < m.tf p ∨ m.kstack p + KSTACKSIZE ≤ addr → mem addr = m.mem addr)
    (frame : ∀ q, t.execs layout → t.result = none →
      Kept layout t ((Trapframe.load m.mem (m.tf p)).user layout.pair q) →
        Kept layout { t with stage := next } ((Trapframe.load mem (m.tf p)).user layout.pair q)) :
    Inv layout ({ m with mem := mem }.setTrapped p { t with stage := next }) := by
  rcases inExecve_eq inside with ⟨calling, execve, _⟩
  rcases calling_eq calling with ⟨trapped, cause, none⟩
  have live : m.state p ≠ .UNUSED := by
    rw [inv.running_kernel mode]
    decide
  rw [inv.sysno_eq live trapped] at execve
  apply inv.setFrame valid mode trapped same
  exact fun q => frame q ⟨cause, execve⟩ none (inv.frames p t live trapped q)

theorem Inv.argc {argc : UInt64} (valid : layout.Valid) (inv : Inv layout m)
    (mode : m.mode c = .kernel p) (inside : m.inExecve layout p .begun = some t) :
    Inv layout ((m.store (m.tf p + offset 0) argc).setTrapped p { t with stage := .argc }) := by
  have stage := (inExecve_eq inside).2.2
  apply inv.execve valid mode inside
  · exact fun addr outside => store_outside (by decide) outside
  · intro q execs none kept
    rw [load_store]
    have early : ¬ t.replaces layout := by
      rintro ⟨_, image⟩
      rw [stage] at image
      cases image
    apply kept.execve execs none
    · intro i other _
      change Function.update (Trapframe.load m.mem (m.tf p)).r 0 argc i = _
      rw [Function.update_of_ne other]
      apply kept.x i other
      rintro _ ⟨_, argv | image⟩
      · rw [stage] at argv
        cases argv
      · rw [stage] at image
        cases image
    · rfl
    · rfl
    · rfl
    · exact fun _ => ⟨kept.sp_el0 early, kept.pc early⟩

theorem Inv.argv {argv : UInt64} (valid : layout.Valid) (inv : Inv layout m)
    (mode : m.mode c = .kernel p) (inside : m.inExecve layout p .argc = some t) :
    Inv layout ((m.store (m.tf p + offset 1) argv).setTrapped p { t with stage := .argv }) := by
  have stage := (inExecve_eq inside).2.2
  apply inv.execve valid mode inside
  · exact fun addr outside => store_outside (by decide) outside
  · intro q execs none kept
    rw [load_store]
    have early : ¬ t.replaces layout := by
      rintro ⟨_, image⟩
      rw [stage] at image
      cases image
    apply kept.execve execs none
    · intro i other first
      have notOne : i ≠ 1 := fun one => (first one).1 rfl
      change Function.update (Trapframe.load m.mem (m.tf p)).r 1 argv i = _
      rw [Function.update_of_ne notOne]
      exact kept.x i other fun one => absurd one notOne
    · rfl
    · rfl
    · rfl
    · exact fun _ => ⟨kept.sp_el0 early, kept.pc early⟩

/-- `execve` sets the stack pointer and the program counter of the new image. -/
theorem Inv.image {sp elr : UInt64} (valid : layout.Valid) (inv : Inv layout m)
    (mode : m.mode c = .kernel p) (inside : m.inExecve layout p .argv = some t) :
    Inv layout (((m.store (m.tf p + 48) sp).store (m.tf p + 32) elr).setTrapped p
      { t with stage := .image }) := by
  apply inv.execve valid mode inside
  · intro addr outside
    exact (store_outside (by decide) outside).trans (store_outside (by decide) outside)
  · intro q execs none kept
    rw [load_store_elr, Machine.store, load_store_sp]
    apply kept.execve execs none
    · intro i other first
      have notOne : i ≠ 1 := fun one => (first one).2 rfl
      exact kept.x i other fun one => absurd one notOne
    · rfl
    · rfl
    · rfl
    · exact fun notYet => absurd rfl notYet

end Execve

end PiKernel.Trap
