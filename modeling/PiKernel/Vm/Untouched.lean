import PiKernel.Conc.Partial
import PiKernel.Vm.Exec

/-!
# Code that leaves the process table alone

The code of `kalloc.c` and `vm.c`, and `execve` up to the vectors on the new stack, works on
pages only: the size, the page table and the trapframe of the caller stay as they are.
-/

namespace PiKernel.Vm

open PiKernel.Conc
open PiKernel.Conc.Prog (perform)

variable {kernelEnd : Nat} {Pid : Type} {pgdir va perm x sz oldsz newsz : Nat}

/-- The process table is not changed. -/
def Act.OnMemory : {β : Type} → Act Pid β → Prop
  | _, .setState _ _ => False
  | _, .setSz _ _ => False
  | _, .setPgdir _ _ => False
  | _, .setKstack _ _ => False
  | _, .setParent _ _ => False
  | _, .setTf _ _ => False
  | _, _ => True

variable [DecidableEq Pid] {p : Pid} {s s' : Machine Pid}

theorem proc_onMemory {β : Type} {action : Act Pid β} {value : β} (kind : action.OnMemory)
    (effect : exec action p s = .done value s') : s'.proc = s.proc := by
  cases action with
  | alloc =>
    simp only [exec] at effect
    split at effect
    · simp only [Outcome.done.injEq] at effect
      rw [← effect.2]
    · simp only [Outcome.done.injEq] at effect
      rw [← effect.2]
  | free x =>
    simp only [exec, Outcome.done.injEq] at effect
    rw [← effect.2]
  | fill x byte =>
    simp only [exec, Outcome.done.injEq] at effect
    rw [← effect.2]
    rfl
  | word x i =>
    simp only [exec, Outcome.done.injEq] at effect
    rw [← effect.2]
  | setWord x i w =>
    simp only [exec, Outcome.done.injEq] at effect
    rw [← effect.2]
    rfl
  | copy dst src =>
    simp only [exec, Outcome.done.injEq] at effect
    rw [← effect.2]
    rfl
  | write x off bytes =>
    simp only [exec, Outcome.done.injEq] at effect
    rw [← effect.2]
    rfl
  | lockTable =>
    simp only [exec] at effect
    split at effect
    · simp only [Outcome.done.injEq] at effect
      rw [← effect.2]
    · cases effect
  | unlockTable =>
    simp only [exec, Outcome.done.injEq] at effect
    rw [← effect.2]
  | proc q =>
    simp only [exec, Outcome.done.injEq] at effect
    rw [← effect.2]
  | setState q state => exact kind.elim
  | setSz q sz => exact kind.elim
  | setPgdir q pgdir => exact kind.elim
  | setKstack q kstack => exact kind.elim
  | setParent q parent => exact kind.elim
  | setTf q tf => exact kind.elim

omit [DecidableEq Pid]

/-! ## `kalloc.c` and `vm.c` -/

theorem kalloc_only : (kalloc : Prog (Act Pid) (Option Nat)).Only Act.OnMemory := by
  apply Prog.Only.bind (.perform trivial)
  intro taken
  cases taken with
  | none => exact .ret
  | some r => exact (Prog.Only.perform trivial).bind fun _ => .ret

theorem kfree_only : (kfree kernelEnd x : Prog (Act Pid) Unit).Only Act.OnMemory := by
  rw [kfree]
  split
  · exact .panic
  · exact .perform trivial

theorem pgdirWalkLoop_only {alloc : Bool} {levels level : Nat} :
    (pgdirWalkLoop va alloc levels level pgdir : Prog (Act Pid) _).Only Act.OnMemory := by
  induction levels generalizing level pgdir with
  | zero => exact .ret
  | succ levels ih =>
      apply Prog.Only.bind (.perform trivial)
      intro pte
      split
      · exact ih
      · split
        · exact .ret
        · apply kalloc_only.bind
          intro taken
          cases taken with
          | none => exact .ret
          | some next =>
              apply Prog.Only.bind (.perform trivial)
              intro _
              exact (Prog.Only.perform trivial).bind fun _ => ih

theorem pgdirWalk_only {alloc : Bool} :
    (pgdirWalk pgdir va alloc : Prog (Act Pid) _).Only Act.OnMemory :=
  pgdirWalkLoop_only

theorem mapRegionLoop_only {pages a : Nat} :
    (mapRegionLoop pgdir perm pages a x : Prog (Act Pid) Bool).Only Act.OnMemory := by
  induction pages generalizing a x with
  | zero => exact .ret
  | succ pages ih =>
      apply pgdirWalk_only.bind
      intro found
      cases found with
      | none => exact .ret
      | some entry =>
          apply Prog.Only.bind (.perform trivial)
          intro pte
          split
          · exact .panic
          · exact (Prog.Only.perform trivial).bind fun _ => ih

theorem mapRegion_only {size : Nat} :
    (mapRegion pgdir va size x perm : Prog (Act Pid) Bool).Only Act.OnMemory :=
  mapRegionLoop_only

theorem pgdirInit_only : (pgdirInit : Prog (Act Pid) Nat).Only Act.OnMemory := by
  apply kalloc_only.bind
  intro taken
  cases taken with
  | none => exact .panic
  | some pgt => exact (Prog.Only.perform trivial).bind fun _ => .ret

theorem vmFreeFrom_only {below : Nat} :
    (vmFreeFrom kernelEnd below pgdir : Prog (Act Pid) Unit).Only Act.OnMemory := by
  induction below generalizing pgdir with
  | zero =>
      apply Prog.Only.forM
      intro i
      apply Prog.Only.bind (.perform trivial)
      intro pte
      split
      · exact kfree_only
      · exact .ret
  | succ below ih =>
      apply Prog.Only.bind _ fun _ => kfree_only
      apply Prog.Only.forM
      intro i
      apply Prog.Only.bind (.perform trivial)
      intro pte
      split
      · exact ih
      · exact .ret

theorem vmFree_only {level : Nat} :
    (vmFree kernelEnd pgdir level : Prog (Act Pid) Unit).Only Act.OnMemory := by
  rw [vmFree]
  split
  · exact vmFreeFrom_only
  · exact .panic

theorem uvmDeallocLoop_only {fuel a : Nat} :
    (uvmDeallocLoop kernelEnd pgdir oldsz fuel a : Prog (Act Pid) Unit).Only Act.OnMemory := by
  induction fuel generalizing a with
  | zero => exact .ret
  | succ fuel ih =>
      rw [uvmDeallocLoop]
      split
      · apply pgdirWalk_only.bind
        intro found
        cases found with
        | none => exact ih
        | some entry =>
            apply Prog.Only.bind (.perform trivial)
            intro pte
            split
            · split
              · exact .panic
              · exact kfree_only.bind fun _ => (Prog.Only.perform trivial).bind fun _ => ih
            · exact ih
      · exact .ret

theorem uvmDealloc_only :
    (uvmDealloc kernelEnd pgdir oldsz newsz : Prog (Act Pid) Nat).Only Act.OnMemory := by
  rw [uvmDealloc]
  split
  · exact .ret
  · exact uvmDeallocLoop_only.bind fun _ => .ret

theorem uvmAllocLoop_only {fuel a : Nat} :
    (uvmAllocLoop kernelEnd pgdir oldsz newsz fuel a : Prog (Act Pid) Bool).Only
      Act.OnMemory := by
  induction fuel generalizing a with
  | zero => exact .ret
  | succ fuel ih =>
      rw [uvmAllocLoop]
      split
      · apply kalloc_only.bind
        intro taken
        cases taken with
        | none => exact uvmDealloc_only.bind fun _ => .ret
        | some mem =>
            apply Prog.Only.bind (.perform trivial)
            intro _
            apply mapRegion_only.bind
            intro mapped
            split
            · exact ih
            · exact uvmDealloc_only.bind fun _ => kfree_only.bind fun _ => .ret
      · exact .ret

theorem uvmAlloc_only :
    (uvmAlloc kernelEnd pgdir oldsz newsz : Prog (Act Pid) Nat).Only Act.OnMemory := by
  rw [uvmAlloc]
  split
  · exact .ret
  · split
    · exact .ret
    · apply uvmAllocLoop_only.bind
      intro allocated
      cases allocated with
      | true => exact .ret
      | false => exact .ret

theorem copyuvmLoop_only {newPgdir sz fuel i : Nat} :
    (copyuvmLoop kernelEnd pgdir newPgdir sz fuel i : Prog (Act Pid) (Option Nat)).Only
      Act.OnMemory := by
  induction fuel generalizing i with
  | zero => exact .ret
  | succ fuel ih =>
      rw [copyuvmLoop]
      split
      · apply pgdirWalk_only.bind
        intro found
        cases found with
        | none => exact .panic
        | some entry =>
            apply Prog.Only.bind (.perform trivial)
            intro pte
            split
            · exact .panic
            · apply kalloc_only.bind
              intro taken
              cases taken with
              | none => exact kfree_only.bind fun _ => .ret
              | some page =>
                  apply Prog.Only.bind (.perform trivial)
                  intro _
                  apply mapRegion_only.bind
                  intro mapped
                  split
                  · exact ih
                  · exact kfree_only.bind fun _ => .ret
      · exact .ret

theorem copyuvm_only {sz : Nat} :
    (copyuvm kernelEnd pgdir sz : Prog (Act Pid) (Option Nat)).Only Act.OnMemory :=
  pgdirInit_only.bind fun _ => copyuvmLoop_only

theorem clearpteu_only : (clearpteu pgdir va : Prog (Act Pid) Unit).Only Act.OnMemory := by
  apply pgdirWalk_only.bind
  intro found
  cases found with
  | none => exact .panic
  | some entry => exact (Prog.Only.perform trivial).bind fun _ => .perform trivial

theorem uva2ka_only : (uva2ka pgdir va : Prog (Act Pid) _).Only Act.OnMemory := by
  apply pgdirWalk_only.bind
  intro found
  cases found with
  | none => exact .panic
  | some entry => exact (Prog.Only.perform trivial).bind fun _ => .ret

theorem copyoutLoop_only {fuel : Nat} {buf : List UInt8} :
    (copyoutLoop pgdir fuel va buf : Prog (Act Pid) Bool).Only Act.OnMemory := by
  induction fuel generalizing va buf with
  | zero => exact .ret
  | succ fuel ih =>
      rw [copyoutLoop]
      split
      · exact .ret
      · apply uva2ka_only.bind
        intro found
        cases found with
        | none => exact .ret
        | some pa0 => exact (Prog.Only.perform trivial).bind fun _ => ih

theorem copyout_only {buf : List UInt8} :
    (copyout pgdir va buf : Prog (Act Pid) Bool).Only Act.OnMemory :=
  copyoutLoop_only

theorem uvmLoadLoop_only {ip : Fs.File} {offset fuel i : Nat} :
    (uvmLoadLoop pgdir va ip offset sz fuel i : Prog (Act Pid) Bool).Only Act.OnMemory := by
  induction fuel generalizing i with
  | zero => exact .ret
  | succ fuel ih =>
      rw [uvmLoadLoop]
      split
      · apply pgdirWalk_only.bind
        intro found
        cases found with
        | none => exact .panic
        | some entry =>
            apply Prog.Only.bind (.perform trivial)
            intro pte
            dsimp only
            cases readi ip (offset + i) (min (sz - i) PGSIZE) with
            | none => exact .ret
            | some bytes =>
                apply Prog.Only.bind (.perform trivial)
                intro _
                split
                · exact .ret
                · exact ih
      · exact .ret

theorem uvmLoad_only {ip : Fs.File} {offset : Nat} :
    (uvmLoad pgdir va ip offset sz : Prog (Act Pid) Bool).Only Act.OnMemory := by
  rw [uvmLoad]
  split
  · exact .panic
  · apply pgdirWalk_only.bind
    intro found
    cases found with
    | none => exact .panic
    | some entry =>
        apply Prog.Only.bind (.perform trivial)
        intro pte
        dsimp only
        cases readi ip offset (min sz (PGSIZE - va % PGSIZE)) with
        | none => exact .ret
        | some bytes =>
            apply Prog.Only.bind (.perform trivial)
            intro _
            split
            · exact .ret
            · exact uvmLoadLoop_only

/-! ## `execve` -/

theorem loadSegments_only {ip : Fs.File} {headers : List (Option Phdr)} :
    (loadSegments kernelEnd pgdir ip headers sz : Prog (Act Pid) _).Only Act.OnMemory := by
  induction headers generalizing sz with
  | nil => exact .ret
  | cons header headers ih =>
      cases header with
      | none => exact .ret
      | some ph =>
          rw [loadSegments]
          split
          · exact ih
          · split
            · exact .ret
            · split
              · exact .ret
              · apply uvmAlloc_only.bind
                intro sz'
                split
                · exact .ret
                · apply uvmLoad_only.bind
                  intro loaded
                  cases loaded with
                  | true => exact ih
                  | false => exact .ret

end PiKernel.Vm
