import PiKernel.Fs.Files
import PiKernel.Trap.Registers
import PiKernel.Vm.Copying
import PiKernel.Vm.Growproc

/-!
# `fork`

A child gets a slot of the process table, a kernel stack, and a copy of the address space.
Where the memory runs out the slot and the stack are given back; of the copy only its root is,
and without a page for the stack or for the root the kernel panics.
-/

namespace PiKernel.Vm

open PiKernel.Conc
open PiKernel.Conc.Prog (perform)
open PiKernel.Trap (CONTEXT KSTACKSIZE TRAPFRAME)

variable {Pid : Type}

/-! ## The program -/

/-- What `fork` uses besides memory: the process ids, and the tables of files. -/
structure Share (Pid : Type) where
  nextpid : Nat
  pid : Pid → Nat
  files : Fs.Tables Pid

inductive ShareAct (Pid : Type) : Type → Type where
  /-- `p->pid = nextpid++` -/
  | nextpid (q : Pid) : ShareAct Pid Unit
  | pid (q : Pid) : ShareAct Pid Nat
  /--
  The child gets the open files and the directory of its parent.  That its loop of `filedup`
  and its `idup` come to one step is `Fs.fork_alone`.
  -/
  | files (child : Pid) : ShareAct Pid Unit

/-- The actions of `fork`. -/
abbrev ForkAct (Pid : Type) : Type → Type := Either (Act Pid) (ShareAct Pid)

section Code

variable (kernelEnd : Nat) (layout : Trap.Layout) (slots : List Pid)

/-- The first slot that is not in use. -/
def findUnused : List Pid → Prog (ForkAct Pid) (Option Pid)
  | [] => return none
  | p :: rest => do
      if (← perform (.left (.proc p))).state = .UNUSED then
        return some p
      else
        findUnused rest

/-- The end of a kernel stack, and what `swtch` and `trapret` find there. -/
def fillKstack (kstack : Nat) : Prog (Act Pid) Unit := do
  let top := KSTACKSIZE - TRAPFRAME
  perform (.write kstack (top - 8) (wordBytes [layout.trapret.toNat]))
  perform (.write kstack (top - 16) (wordBytes [kstack * PGSIZE + KSTACKSIZE]))
  perform (.write kstack (top - 16 - CONTEXT + 88) (wordBytes [layout.forkret.toNat + 8]))

/-- Take an unused slot, with a kernel stack; the trap frame is part of the stack. -/
def procAlloc : Prog (ForkAct Pid) (Option Pid) := do
  perform (.left .lockTable)
  match ← findUnused slots with
  | none =>
      perform (.left .unlockTable)
      return none
  | some p =>
      match ← (kalloc : Prog (Act Pid) _).left with
      | none =>
          perform (.left .unlockTable)
          .panic "proc_alloc: cannot alloc kstack.\n"
      | some kstack =>
          perform (.left (.setKstack p kstack))
          perform (.left (.setSz p PGSIZE))
          (fillKstack layout kstack).left
          perform (.left (.setState p .EMBRYO))
          perform (.right (.nextpid p))
          perform (.left .unlockTable)
          return some p

/-- Create a new process copying the caller; `none` for -1. -/
def fork (self : Pid) : Prog (ForkAct Pid) (Option Nat) := do
  match ← procAlloc layout slots with
  | none => return none
  | some p =>
      let parent ← perform (.left (.proc self))
      match ← (copyuvm kernelEnd parent.pgdir parent.sz).left with
      | none =>
          perform (.left (.setPgdir p 0))
          let proc ← perform (.left (.proc p))
          (kfree kernelEnd proc.kstack).left
          perform (.left (.setKstack p 0))
          perform (.left (.setState p .UNUSED))
          return none
      | some pgdir =>
          perform (.left (.setPgdir p pgdir))
          let parent ← perform (.left (.proc self))
          perform (.left (.setSz p parent.sz))
          perform (.left (.setTf p { parent.tf with r0 := 0 }))
          perform (.left (.setParent p (some self)))
          perform (.right (.files p))
          perform (.left (.setState p .RUNNABLE))
          let pid ← perform (.right (.pid p))
          return some pid

end Code

variable [DecidableEq Pid]

/-- The effect of every action besides memory. -/
def ShareAct.exec : {β : Type} → ShareAct Pid β → Pid → Share Pid → Outcome β (Share Pid)
  | _, .nextpid q, _, s =>
      .done () { s with nextpid := s.nextpid + 1, pid := Function.update s.pid q s.nextpid }
  | _, .pid q, _, s => .done (s.pid q) s
  | _, .files child, p, s =>
      if s.files.born child then
        .blocked
      else
        .done () { s with files := s.files.fork p child }

def share : System (ShareAct Pid) Pid (Share Pid) where
  exec := ShareAct.exec
  task _ _ _ := False

/-- Memory and the process table, with the rest of what `fork` works on. -/
def kernel : System (ForkAct Pid) Pid (Machine Pid × Share Pid) :=
  machine.prod share

/-! ## What is meant -/

/-- A process that may fork, with a process table that is in order. -/
structure Forking (kernelEnd : Nat) (p : Pid) (s : Machine Pid × Share Pid) : Prop where
  sound : s.1.Sound kernelEnd
  keeps : (s.1.view kernelEnd p).Keeps {((s.1.proc p).pgdir, 4)}
  size : (s.1.proc p).sz < UADDR_SZ
  mapped : ∀ va, va < (s.1.proc p).sz →
    (mappedPage s.1.mem (s.1.proc p).pgdir va).isSome
  lock : s.1.lock = none
  running : (s.1.proc p).state ≠ .UNUSED
  born : ∀ q, (s.1.proc q).state = .UNUSED → s.2.files.born q = false

/-- Nothing has changed but dead fields of unused slots and the next process id. -/
structure Clean (s s' : Machine Pid × Share Pid) : Prop where
  free : s'.1.freeList.Perm s.1.freeList
  proc : ∀ q, (s.1.proc q).state ≠ .UNUSED → s'.1.proc q = s.1.proc q
  unused : ∀ q, (s.1.proc q).state = .UNUSED → (s'.1.proc q).state = .UNUSED
  pid : ∀ q, (s.1.proc q).state ≠ .UNUSED → s'.2.pid q = s.2.pid q
  lock : s'.1.lock = s.1.lock
  files : s'.2.files = s.2.files

/-- The pages that a child costs: its kernel stack, its root, its tables and its pages. -/
def Machine.forkCost (s : Machine Pid) (p : Pid) : Nat :=
  2 + need (pages (s.proc p).sz)

/-- `fork` returns; it returns -1 if the memory runs out, and then nothing has changed. -/
def ForkFailsCleanly (kernelEnd : Nat) (layout : Trap.Layout) (slots : List Pid) (p : Pid)
    (s : Machine Pid × Share Pid) : Prop :=
  ∃ result s', kernel.Completes p (fork kernelEnd layout slots p) s result s' ∧
    (s.1.freeList.length < s.1.forkCost p → result = none) ∧ (result = none → Clean s s')

/-! ## `proc_alloc` -/

section Alloc

variable {kernelEnd : Nat} {layout : Trap.Layout} {slots : List Pid} {p q : Pid}
  {s : Machine Pid × Share Pid} {mayPanic : String → Prop}

/-- A slot has been taken for a new process. -/
structure Embryo (s : Machine Pid × Share Pid) (q : Pid) (kstack : Nat)
    (s' : Machine Pid × Share Pid) : Prop where
  freeList : s.1.freeList = kstack :: s'.1.freeList
  mem : ∀ x, x ≠ kstack → s'.1.mem x = s.1.mem x
  other : ∀ q', q' ≠ q → s'.1.proc q' = s.1.proc q'
  self : s'.1.proc q = { s.1.proc q with kstack := kstack, sz := PGSIZE, state := .EMBRYO }
  lock : s'.1.lock = none
  pid : ∀ q', q' ≠ q → s'.2.pid q' = s.2.pid q'
  files : s'.2.files = s.2.files

theorem findUnused_ends {post : Option Pid → Machine Pid × Share Pid → Prop}
    (absent : (∀ q ∈ slots, (s.1.proc q).state ≠ .UNUSED) → post none s)
    (found : ∀ q ∈ slots, (s.1.proc q).state = .UNUSED → post (some q) s) :
    kernel.Ends p mayPanic post (findUnused slots) s := by
  induction slots with
  | nil => exact .ret (absent (by simp))
  | cons q rest ih =>
      refine System.Ends.step rfl ?_
      by_cases unused : (s.1.proc q).state = .UNUSED
      · rw [if_pos unused]
        exact .ret (found q List.mem_cons_self unused)
      · rw [if_neg unused]
        apply ih
        · intro used
          apply absent
          intro q' member
          rcases List.mem_cons.mp member with rfl | later
          · exact unused
          · exact used q' later
        · exact fun q' member => found q' (List.mem_cons_of_mem q member)

theorem procAlloc_ends {post : Option Pid → Machine Pid × Share Pid → Prop}
    (lock : s.1.lock = none)
    (panics : (∃ q ∈ slots, (s.1.proc q).state = .UNUSED) → s.1.freeList = [] →
      ∀ message, mayPanic message)
    (absent : (∀ q ∈ slots, (s.1.proc q).state ≠ .UNUSED) → post none s)
    (found : ∀ q kstack s', q ∈ slots → (s.1.proc q).state = .UNUSED →
      Embryo s q kstack s' → post (some q) s') :
    kernel.Ends p mayPanic post (procAlloc layout slots) s := by
  have locked : kernel.exec (.left .lockTable) p s =
      .done () ({ s.1 with lock := some p }, s.2) := by
    simp only [kernel, System.prod, machine, exec, if_pos lock, Outcome.map]
  refine System.Ends.step locked ?_
  apply System.Ends.bind
  apply findUnused_ends
  · intro used
    refine System.Ends.step rfl (.ret ?_)
    have same : ({ s.1 with lock := none } : Machine Pid) = s.1 := by
      rw [← lock]
    change post none ({ s.1 with lock := none }, s.2)
    rw [same]
    exact absent used
  · intro q member unused
    cases list : s.1.freeList with
    | nil =>
        have empty : kernel.exec (.left .alloc) p ({ s.1 with lock := some p }, s.2) =
            .done none ({ s.1 with lock := some p }, s.2) := by
          simp only [kernel, System.prod, machine, exec, list, Outcome.map]
        refine System.Ends.step empty ?_
        exact System.Ends.step rfl (.panic (panics ⟨q, member, unused⟩ list _))
    | cons kstack rest =>
        have taken : kernel.exec (.left .alloc) p ({ s.1 with lock := some p }, s.2) =
            .done (some kstack) ({ s.1 with freeList := rest, lock := some p }, s.2) := by
          simp only [kernel, System.prod, machine, exec, list, Outcome.map]
        refine System.Ends.step taken ?_
        refine System.Ends.step rfl ?_
        refine System.Ends.step rfl ?_
        refine System.Ends.step rfl ?_
        refine System.Ends.step rfl ?_
        refine System.Ends.step rfl ?_
        refine System.Ends.step rfl ?_
        refine System.Ends.step rfl ?_
        refine System.Ends.step rfl ?_
        refine System.Ends.step rfl (.ret ?_)
        apply found q kstack _ member unused
        constructor
        · exact list
        · intro x other
          simp [Machine.setMem, Machine.setProc, other]
        · intro q' other
          simp [Machine.setMem, Machine.setProc, other]
        · simp [Machine.setMem, Machine.setProc]
        · rfl
        · intro q' other
          simp [other]
        · rfl

variable {kstack : Nat} {s' : Machine Pid × Share Pid}

omit [DecidableEq Pid] in
theorem Embryo.usable (embryo : Embryo s q kstack s') (sound : s.1.Sound kernelEnd) :
    Usable kernelEnd kstack := by
  apply sound.usable
  rw [embryo.freeList]
  exact List.mem_cons_self

omit [DecidableEq Pid] in
theorem Embryo.nodup (embryo : Embryo s q kstack s') (sound : s.1.Sound kernelEnd) :
    (kstack :: s'.1.freeList).Nodup := by
  rw [← embryo.freeList]
  exact sound.nodup

omit [DecidableEq Pid] in
theorem Embryo.sound (embryo : Embryo s q kstack s') (sound : s.1.Sound kernelEnd) :
    s'.1.Sound kernelEnd where
  nodup := (List.nodup_cons.mp (embryo.nodup sound)).2
  usable x free := by
    apply sound.usable
    rw [embryo.freeList]
    exact List.mem_cons_of_mem _ free

omit [DecidableEq Pid] in
/-- The process has the new kernel stack in its hands. -/
theorem Embryo.view (embryo : Embryo s q kstack s') (sound : s.1.Sound kernelEnd)
    (other : p ≠ q) : s'.1.view kernelEnd p =
      (s.1.view kernelEnd p).take kstack (s'.1.mem kstack) (embryo.usable sound) := by
  have fresh := (List.nodup_cons.mp (embryo.nodup sound)).1
  ext1
  · funext x
    by_cases same : x = kstack
    · subst same
      rw [Heap.take_page_same]
      exact Machine.view_page (embryo.usable sound) fresh
    · rw [Heap.take_page_other same]
      simp [Machine.view, embryo.freeList, embryo.mem x same, same]
  · simp [Machine.view, Heap.take, embryo.freeList]
  · exact congrArg Proc.tf (embryo.other p other)

end Alloc

/-! ## What `fork` leaves -/

section Fork

variable {kernelEnd : Nat} {layout : Trap.Layout} {slots : List Pid} {p q : Pid}
  {kstack : Nat} {s s₁ s' : Machine Pid × Share Pid} {h : Heap kernelEnd}

/-- The outcomes of `fork`, but for a panic. -/
inductive Forked (slots : List Pid) (p : Pid) (s : Machine Pid × Share Pid) :
    Option Nat → Machine Pid × Share Pid → Prop where
  | full (used : ∀ q ∈ slots, (s.1.proc q).state ≠ .UNUSED) : Forked slots p s none s
  | clean {s' : Machine Pid × Share Pid} (two : s.1.freeList.length = 2)
      (short : 2 < s.1.forkCost p) (clean : Clean s s') : Forked slots p s none s'
  | leak {s' : Machine Pid × Share Pid} {x : Nat}
      (slot : ∃ q ∈ slots, (s.1.proc q).state = .UNUSED) (more : 2 < s.1.freeList.length)
      (short : s.1.freeList.length < s.1.forkCost p) (free : x ∈ s.1.freeList)
      (lost : x ∉ s'.1.freeList) : Forked slots p s none s'
  | done {s' : Machine Pid × Share Pid} {pid : Nat}
      (enough : s.1.forkCost p ≤ s.1.freeList.length) : Forked slots p s (some pid) s'

/-- The new process is given up. -/
def Machine.giveUp (s : Machine Pid) (q : Pid) (kstack : Nat) : Machine Pid :=
  { s with
    freeList := kstack :: s.freeList
    proc := Function.update s.proc q
      { s.proc q with pgdir := 0, kstack := 0, state := .UNUSED } }

theorem Machine.giveUp_proc_other {m : Machine Pid} {q' : Pid} (other : q' ≠ q) :
    (m.giveUp q kstack).proc q' = m.proc q' :=
  Function.update_of_ne other _ _

theorem Machine.giveUp_proc_same {m : Machine Pid} :
    ((m.giveUp q kstack).proc q).state = .UNUSED := by
  simp [Machine.giveUp]

/-- The slot and the kernel stack are given back. -/
theorem Embryo.clean (embryo : Embryo s q kstack s₁) (unused : (s.1.proc q).state = .UNUSED)
    (lock : s.1.lock = none) {m : Machine Pid} (proc : m.proc = s₁.1.proc)
    (lock' : m.lock = none) (free : m.freeList.Perm s₁.1.freeList) :
    Clean s (m.giveUp q kstack, s₁.2) where
  free := by
    rw [embryo.freeList]
    exact free.cons kstack
  proc q' used := by
    have other : q' ≠ q := by
      rintro rfl
      exact used unused
    rw [Machine.giveUp_proc_other other, proc, embryo.other q' other]
  unused q' unused' := by
    by_cases same : q' = q
    · subst same
      exact Machine.giveUp_proc_same
    · rw [Machine.giveUp_proc_other same, proc, embryo.other q' same, unused']
  pid q' used := by
    apply embryo.pid
    rintro rfl
    exact used unused
  lock := lock'.trans lock.symm
  files := embryo.files

/-- The outcomes of `copyuvm`. -/
inductive Copied (h : Heap kernelEnd) (cost : Nat) :
    Option Nat → Heap kernelEnd → Prop where
  | refused {newPgdir : Nat} {usable : Usable kernelEnd newPgdir} {h' : Heap kernelEnd}
      (new : h.page newPgdir = none) (full : h.supply ≠ some 0)
      (short : Short (h.take newPgdir (filled 0) usable) cost)
      (abandoned : Abandoned (h.take newPgdir (filled 0) usable) newPgdir h') :
      Copied h cost none h'
  | copied {newPgdir : Nat} {usable : Usable kernelEnd newPgdir} {h' : Heap kernelEnd}
      (full : h.supply ≠ some 0)
      (spent : Spent (h.take newPgdir (filled 0) usable) h' cost) :
      Copied h cost (some newPgdir) h'

/-- The memory has run out for the copy. -/
theorem Embryo.forked (embryo : Embryo s q kstack s₁) (forking : Forking kernelEnd p s)
    (member : q ∈ slots) (unused : (s.1.proc q).state = .UNUSED) {m : Machine Pid}
    (sound : m.Sound kernelEnd)
    (proc : m.proc = s₁.1.proc) (lock : m.lock = none) {newPgdir : Nat}
    {usable : Usable kernelEnd newPgdir}
    (new : (s₁.1.view kernelEnd p).page newPgdir = none)
    (full : (s₁.1.view kernelEnd p).supply ≠ some 0)
    (short : Short ((s₁.1.view kernelEnd p).take newPgdir (filled 0) usable)
      (need (pages (s.1.proc p).sz)))
    (abandoned : Abandoned ((s₁.1.view kernelEnd p).take newPgdir (filled 0) usable) newPgdir
      (m.view kernelEnd p)) :
    Forked slots p s none (m.giveUp q kstack, s₁.2) := by
  have sound₁ := embryo.sound forking.sound
  have count : s.1.freeList.length = s₁.1.freeList.length + 1 := by
    rw [embryo.freeList, List.length_cons]
  have some_left : s₁.1.freeList.length ≠ 0 := fun zero => full (congrArg some zero)
  have supply : ((s₁.1.view kernelEnd p).take newPgdir (filled 0) usable).supply =
      some (s₁.1.freeList.length - 1) := rfl
  have few := short _ supply
  cases abandoned with
  | clean short' same =>
      have one := short' _ supply
      apply Forked.clean
      · omega
      · rw [Machine.forkCost]
        omega
      · apply embryo.clean unused forking.lock proc lock
        rw [List.perm_ext_iff_of_nodup sound.nodup sound₁.nodup]
        intro x
        rw [Machine.mem_freeList_iff p sound, Machine.mem_freeList_iff p sound₁, same]
        by_cases root : x = newPgdir
        · subst root
          rw [Heap.drop_page_same, new]
        · rw [Heap.drop_page_other root, Heap.take_page_other root]
  | @leak x enough free lost =>
      have two := enough _ supply
      have other : x ≠ newPgdir := by
        rintro rfl
        rw [Heap.take_page_same] at free
        cases free
      rw [Heap.take_page_other other] at free
      have usable' := (m.view kernelEnd p).usable x lost
      have before : x ∈ s₁.1.freeList := (Machine.mem_freeList_iff p sound₁).mpr ⟨usable', free⟩
      have after : x ∉ m.freeList := by
        intro free'
        rcases Heap.mem_owned.mp lost with ⟨page, here⟩
        rw [Machine.view_page_free free'] at here
        cases here
      apply Forked.leak ⟨q, member, unused⟩
      · omega
      · rw [Machine.forkCost]
        omega
      · rw [embryo.freeList]
        exact List.mem_cons_of_mem _ before
      · intro member
        rcases List.mem_cons.mp member with rfl | member
        · exact (List.nodup_cons.mp (embryo.nodup forking.sound)).1 before
        · exact after member

theorem fork_ends (forking : Forking kernelEnd p s) :
    kernel.Ends p
      (fun _ => (∃ q ∈ slots, (s.1.proc q).state = .UNUSED) ∧ s.1.freeList.length < 2)
      (Forked slots p s) (fork kernelEnd layout slots p) s := by
  apply System.Ends.bind
  apply procAlloc_ends forking.lock
  · intro slot empty _
    exact ⟨slot, by rw [empty]; decide⟩
  · intro used
    exact .ret (.full used)
  · intro q kstack s₁ member unused embryo
    have other : p ≠ q := by
      rintro rfl
      exact forking.running unused
    have sound₁ := embryo.sound forking.sound
    have caller : s₁.1.proc p = s.1.proc p := embryo.other p other
    have viewed := embryo.view forking.sound other
    have fresh : (s.1.view kernelEnd p).page kstack = none := by
      apply Machine.view_page_free
      rw [embryo.freeList]
      exact List.mem_cons_self
    have keeps : (s₁.1.view kernelEnd p).Keeps {((s.1.proc p).pgdir, 4)} := by
      rw [viewed]
      exact (forking.keeps.take fresh).mono (Set.subset_insert _ _)
    have mapped : ∀ n, n < pages (s.1.proc p).sz →
        ((s₁.1.view kernelEnd p).mapped (s.1.proc p).pgdir n).isSome := by
      intro n below
      rw [viewed, Heap.mapped, forking.keeps.follow_take rfl fresh leafPath_length.le]
      have here := forking.mapped (n * PGSIZE) (lt_pages.mpr below)
      rwa [mappedPage_eq forking.keeps rfl, Nat.mul_div_cancel _ (by decide)] at here
    have count : s.1.freeList.length = s₁.1.freeList.length + 1 := by
      rw [embryo.freeList, List.length_cons]
    let mayPanic := fun _ : String =>
      (∃ q ∈ slots, (s.1.proc q).state = .UNUSED) ∧ s.1.freeList.length < 2
    have copies : (aloneRules kernelEnd p mayPanic).wp
        (copyuvm kernelEnd (s.1.proc p).pgdir (s.1.proc p).sz) (s₁.1.view kernelEnd p)
        (Copied (s₁.1.view kernelEnd p) (need (pages (s.1.proc p).sz))) := by
      apply copyuvm_span keeps (Set.empty_subset _) rfl forking.size mapped
      · rintro (unknown | empty)
        · cases unknown
        · have zero : s₁.1.freeList.length = 0 := Option.some.inj empty
          exact ⟨⟨q, member, unused⟩, by omega⟩
      · exact fun _ _ _ new full short abandoned => .refused new full short abandoned
      · exact fun _ _ _ _ full copying => .copied full copying.spent
    refine System.Ends.step rfl ?_
    change kernel.Ends p mayPanic _ ((copyuvm kernelEnd (s₁.1.proc p).pgdir
      (s₁.1.proc p).sz).left >>= _) (s₁.1, s₁.2)
    rw [caller]
    apply System.Ends.bind
    refine (((sound₁.ends copies).leaving (proc_leaves copyuvm_only)).left).mono
      (fun _ => id) ?_
    rintro result ⟨m, rest⟩ ⟨⟨⟨sound, framed, copied⟩, proc⟩, rfl⟩
    have lock : m.lock = none := framed.lock.trans embryo.lock
    have stack : (m.proc q).kstack = kstack := by rw [proc, embryo.self]
    cases copied with
    | refused new full short abandoned =>
        have usable := embryo.usable forking.sound
        have given : kfree kernelEnd kstack = (perform (.free kstack) : Prog (Act Pid) Unit) := by
          rw [kfree, if_neg]
          simp only [Bool.or_eq_true, decide_eq_true_eq]
          exact fun outside => outside.elim (not_lt.mpr usable.1) (not_le.mpr usable.2)
        let cleared := m.setProc q { m.proc q with pgdir := 0 }
        have same : (cleared.proc q).kstack = kstack := by
          simp [cleared, Machine.setProc, stack]
        refine System.Ends.step rfl ?_
        refine System.Ends.step rfl ?_
        change kernel.Ends p mayPanic _ ((kfree kernelEnd (cleared.proc q).kstack).left >>= _)
          (cleared, s₁.2)
        rw [same, given]
        refine System.Ends.step rfl ?_
        refine System.Ends.step rfl ?_
        refine System.Ends.step rfl (.ret ?_)
        have forked : Forked slots p s none (m.giveUp q kstack, s₁.2) :=
          embryo.forked forking member unused sound proc lock new full short abandoned
        have final : ∀ m' : Machine Pid, m' = m.giveUp q kstack →
            Forked slots p s none (m', s₁.2) := fun _ equal => equal ▸ forked
        apply final
        simp [cleared, Machine.giveUp, Machine.setProc]
    | copied full spent =>
        have enough := spent.2 _ rfl
        have some_left : s₁.1.freeList.length ≠ 0 := fun zero => full (congrArg some zero)
        have newborn : s₁.2.files.born q = false := by
          rw [embryo.files]
          exact forking.born q unused
        have shared : ∀ m' : Machine Pid, kernel.exec (.right (.files q)) p (m', s₁.2) =
            .done () (m', { s₁.2 with files := s₁.2.files.fork p q }) := by
          intro m'
          simp [kernel, System.prod, share, ShareAct.exec, newborn, Outcome.map]
        refine System.Ends.step rfl ?_
        refine System.Ends.step rfl ?_
        refine System.Ends.step rfl ?_
        refine System.Ends.step rfl ?_
        refine System.Ends.step rfl ?_
        refine System.Ends.step (shared _) ?_
        refine System.Ends.step rfl ?_
        refine System.Ends.step rfl (.ret (.done ?_))
        rw [Machine.forkCost]
        change need (pages (s.1.proc p).sz) ≤ s₁.1.freeList.length - 1 at enough
        omega

omit [DecidableEq Pid] in
theorem Clean.refl : Clean s s where
  free := .refl _
  proc _ _ := rfl
  unused _ unused := unused
  pid _ _ := rfl
  lock := rfl
  files := rfl

/-- Memory for the stack and the root alone is given back. -/
theorem fork_failsCleanly (forking : Forking kernelEnd p s)
    (good : (∀ q ∈ slots, (s.1.proc q).state ≠ .UNUSED) ∨ s.1.freeList.length = 2 ∨
      s.1.forkCost p ≤ s.1.freeList.length) :
    ForkFailsCleanly kernelEnd layout slots p s := by
  have noPanic : ¬ ((∃ q ∈ slots, (s.1.proc q).state = .UNUSED) ∧
      s.1.freeList.length < 2) := by
    rintro ⟨⟨q, member, unused⟩, few⟩
    rcases good with used | two | enough
    · exact used q member unused
    · omega
    · rw [Machine.forkCost] at enough
      omega
  have ends : kernel.Ends p _ (Forked slots p s) (fork kernelEnd layout slots p) s :=
    fork_ends forking
  rcases (ends.mono (fun _ => noPanic) fun _ _ => id).completes with ⟨result, s', done, forked⟩
  refine ⟨result, s', done, ?_⟩
  cases forked with
  | full used => exact ⟨fun _ => rfl, fun _ => .refl⟩
  | clean _ _ clean => exact ⟨fun _ => rfl, fun _ => clean⟩
  | leak slot more short _ _ =>
      rcases slot with ⟨q, member, unused⟩
      rcases good with used | two | enough
      · exact absurd unused (used q member)
      · omega
      · omega
  | done enough =>
      exact ⟨fun few => absurd few (not_lt.mpr enough), fun failed => by cases failed⟩

/-- The pages of a copy that has been begun are lost. -/
theorem fork_leaks (forking : Forking kernelEnd p s)
    (clean : ForkFailsCleanly kernelEnd layout slots p s) :
    (∀ q ∈ slots, (s.1.proc q).state ≠ .UNUSED) ∨ s.1.freeList.length = 2 ∨
      s.1.forkCost p ≤ s.1.freeList.length := by
  rcases clean with ⟨result, s', done, -, clean⟩
  cases (fork_ends forking).of_completes done with
  | full used => exact .inl used
  | clean two _ _ => exact .inr (.inl two)
  | leak _ _ _ free lost => exact absurd ((clean rfl).free.mem_iff.mpr free) lost
  | done enough => exact .inr (.inr enough)

/--
`fork` fails cleanly exactly where there is no slot, or enough memory, or memory only for the
two pages that are given back.
-/
theorem fork_failsCleanly_iff (forking : Forking kernelEnd p s) :
    ForkFailsCleanly kernelEnd layout slots p s ↔
      (∀ q ∈ slots, (s.1.proc q).state ≠ .UNUSED) ∨ s.1.freeList.length = 2 ∨
        s.1.forkCost p ≤ s.1.freeList.length :=
  ⟨fork_leaks forking, fork_failsCleanly forking⟩

end Fork

/-! ## A leak -/

/-- A process that has a slot for its child. -/
def withSlot (s : Machine Unit) : Machine Bool × Share Bool where
  fst :=
    { mem := s.mem
      freeList := s.freeList
      proc := fun child =>
        { state := if child then .UNUSED else .RUNNING
          sz := (s.proc ()).sz
          pgdir := (s.proc ()).pgdir
          kstack := (s.proc ()).kstack
          parent := none
          tf := (s.proc ()).tf }
      lock := none }
  snd :=
    { nextpid := 2
      pid := fun _ => 1
      files :=
        { inum := fun _ => 0
          ref := fun _ => 0
          valid := fun _ => false
          lock := fun _ => none
          ftable := fun _ =>
            { type := .FD_NONE, ref := 0, readable := false, writable := false, ip := none,
              off := 0 }
          ofile := fun _ _ => none
          cwd := fun _ => none
          born := fun child => !child
          hold := fun _ _ => 0
          fhold := fun _ _ => 0
          frees := fun _ => false } }

theorem withSlot_forking {kernelEnd : Nat} {s : Machine Unit} (sized : s.Sized kernelEnd ()) :
    Forking kernelEnd false (withSlot s) := by
  have viewed : (withSlot s).1.view kernelEnd false = s.view kernelEnd () := rfl
  constructor
  · exact ⟨sized.sound.nodup, sized.sound.usable⟩
  · rw [viewed]
    exact sized.keeps
  · exact sized.size
  · intro va below
    have low : va < UADDR_SZ := lt_trans below sized.size
    simp only [UADDR_SZ] at low
    apply (sized.exactly va (by omega)).mpr
    change va < (s.proc ()).sz at below
    rw [ROUNDUP_page, ← Nat.div_lt_iff_lt_mul (by decide), ← lt_pages]
    exact lt_of_le_of_lt (Nat.div_mul_le_self va PGSIZE) below
  · rfl
  · exact fun unused => by cases unused
  · intro child unused
    cases child with
    | true => rfl
    | false => cases unused

theorem fork_failsCleanly_iff_onePageProcess :
    ForkFailsCleanly 1 Trap.twoPages [true] false (withSlot onePageProcess.2) ↔
      (∀ q ∈ [true], ((withSlot onePageProcess.2).1.proc q).state ≠ .UNUSED) ∨
        (withSlot onePageProcess.2).1.freeList.length = 2 ∨
        (withSlot onePageProcess.2).1.forkCost false ≤
          (withSlot onePageProcess.2).1.freeList.length :=
  fork_failsCleanly_iff (withSlot_forking onePageProcess_sized)

/-- With three free pages the page of the child and two of its tables cannot all be had. -/
theorem not_forkFailsCleanly_onePageProcess :
    Forking 1 false (withSlot onePageProcess.2) ∧
      ¬ ForkFailsCleanly 1 Trap.twoPages [true] false (withSlot onePageProcess.2) := by
  have forking := withSlot_forking onePageProcess_sized
  refine ⟨forking, fun clean => ?_⟩
  have free : (withSlot onePageProcess.2).1.freeList.length = 3 := by decide
  have cost : (withSlot onePageProcess.2).1.forkCost false = 6 := by decide
  rcases fork_leaks forking clean with used | two | enough
  · exact used true (by simp) rfl
  · rw [free] at two
    cases two
  · rw [free, cost] at enough
    exact absurd enough (by decide)

end PiKernel.Vm
