import PiKernel.Base.Bytes
import PiKernel.Conc.Prog
import Mathlib.Data.Nat.Bitwise

/-!
# Physical memory and the process table

The state on which `kern/kalloc.c`, `kern/vm.c` and the memory side of
`kern/proc.c` and `kern/exec.c` work.  Physical memory is an array of pages of
bytes, and the kernel's addresses are physical ones, as `P2V` and `V2P` only add
and subtract `KERNBASE`.  One action is one access to memory, or one critical
section of `kmem.lock`.
-/

namespace PiKernel.Vm

open PiKernel.Bytes
open PiKernel.Conc

def PGSIZE : Nat := 2 ^ 12

/-- What one level-3 table maps. -/
def BKSIZE : Nat := 2 ^ 21

/-- Max user address space size. -/
def UADDR_SZ : Nat := 2 ^ 28

/-- Top physical memory. -/
def PHYSTOP : Nat := 0x3F000000

/-- Entries of a page table. -/
def ENTRYSZ : Nat := 512

abbrev Page := Fin PGSIZE → UInt8

/-- `((uint64_t *)page)[i]`. -/
def word (page : Page) (i : Nat) : Nat :=
  readLE page (8 * i) 8

/-- `((uint64_t *)page)[i] = w`. -/
def setWord (page : Page) (i w : Nat) : Page :=
  writeLE page (8 * i) 8 w

theorem word_lt (page : Page) (i : Nat) : word page i < 2 ^ 64 :=
  readLE_lt page (8 * i) 8

theorem word_setWord_same {page : Page} {i w : Nat} (inside : i < ENTRYSZ)
    (fits : w < 2 ^ 64) : word (setWord page i w) i = w := by
  have row : 8 * i + 8 ≤ PGSIZE := by
    simp only [ENTRYSZ, PGSIZE] at inside ⊢
    omega
  rw [word, setWord, readLE_writeLE_same row]
  exact Nat.mod_eq_of_lt fits

/-- Entries are 64 bits wide. -/
theorem setWord_mod {page : Page} {i w : Nat} : setWord page i (w % 2 ^ 64) = setWord page i w :=
  writeLE_mod

theorem word_setWord_mod {page : Page} {i w : Nat} (inside : i < ENTRYSZ) :
    word (setWord page i w) i = w % 2 ^ 64 := by
  rw [← setWord_mod]
  exact word_setWord_same inside (Nat.mod_lt w (by norm_num))

theorem word_setWord_other {page : Page} {i j w : Nat} (other : j ≠ i) :
    word (setWord page i w) j = word page j :=
  readLE_writeLE_disjoint (by omega)

/-- `memset(page, byte, PGSIZE)`. -/
def filled (byte : UInt8) : Page := fun _ => byte

theorem readLE_filled (off width : Nat) : readLE (filled 0) off width = 0 := by
  induction width generalizing off with
  | zero => rfl
  | succ width ih =>
      rw [readLE, ih]
      simp [byteAt, filled]

@[simp]
theorem word_filled (i : Nat) : word (filled 0) i = 0 :=
  readLE_filled _ _

/-! ## The state -/

inductive ProcState where
  | UNUSED
  | EMBRYO
  | SLEEPING
  | RUNNABLE
  | RUNNING
  | ZOMBIE
  deriving DecidableEq

/-- The registers in the trapframe which `fork` and `execve` set. -/
structure Trapframe where
  r0 : Nat
  r1 : Nat
  sp : Nat
  elr : Nat

/-- `struct proc`, as far as its memory is concerned. -/
structure Proc (Pid : Type) where
  state : ProcState
  /-- Size of process memory (bytes). -/
  sz : Nat
  /-- Page table. -/
  pgdir : Nat
  /-- Bottom of kernel stack for this process. -/
  kstack : Nat
  parent : Option Pid
  tf : Trapframe

/-- The state shared by all processes; a page is named by its number. -/
structure Machine (Pid : Type) where
  mem : Nat → Page
  /-- Free list of physical pages. -/
  freeList : List Nat
  proc : Pid → Proc Pid
  /-- The holder of `ptable.lock`. -/
  lock : Option Pid

/-- The actions on memory and on the process table. -/
inductive Act (Pid : Type) : Type → Type where
  /-- The critical section of `kalloc`. -/
  | alloc : Act Pid (Option Nat)
  /-- The critical section of `kfree`. -/
  | free (x : Nat) : Act Pid Unit
  | fill (x : Nat) (byte : UInt8) : Act Pid Unit
  | word (x i : Nat) : Act Pid Nat
  | setWord (x i w : Nat) : Act Pid Unit
  | copy (dst src : Nat) : Act Pid Unit
  | write (x off : Nat) (bytes : List UInt8) : Act Pid Unit
  | lockTable : Act Pid Unit
  | unlockTable : Act Pid Unit
  | proc (q : Pid) : Act Pid (Proc Pid)
  | setState (q : Pid) (state : ProcState) : Act Pid Unit
  | setSz (q : Pid) (sz : Nat) : Act Pid Unit
  | setPgdir (q : Pid) (pgdir : Nat) : Act Pid Unit
  | setKstack (q : Pid) (kstack : Nat) : Act Pid Unit
  | setParent (q : Pid) (parent : Option Pid) : Act Pid Unit
  | setTf (q : Pid) (tf : Trapframe) : Act Pid Unit

variable {Pid : Type} [DecidableEq Pid]

namespace Machine

variable (s : Machine Pid)

def setMem (x : Nat) (page : Page) : Machine Pid :=
  { s with mem := Function.update s.mem x page }

def setProc (q : Pid) (proc : Proc Pid) : Machine Pid :=
  { s with proc := Function.update s.proc q proc }

variable {s} {x y : Nat} {page : Page}

omit [DecidableEq Pid] in
@[simp]
theorem mem_setMem_same : (s.setMem x page).mem x = page :=
  Function.update_self _ _ _

omit [DecidableEq Pid] in
theorem mem_setMem_other (other : y ≠ x) : (s.setMem x page).mem y = s.mem y :=
  Function.update_of_ne other _ _

end Machine

/-- The effect of every action. -/
def exec : {β : Type} → Act Pid β → Pid → Machine Pid → Outcome β (Machine Pid)
  | _, .alloc, _, s =>
      match s.freeList with
      | [] => .done none s
      | x :: rest => .done (some x) { s with freeList := rest }
  | _, .free x, _, s => .done () { s with freeList := x :: s.freeList }
  | _, .fill x byte, _, s => .done () (s.setMem x (filled byte))
  | _, .word x i, _, s => .done (Vm.word (s.mem x) i) s
  | _, .setWord x i w, _, s => .done () (s.setMem x (Vm.setWord (s.mem x) i w))
  | _, .copy dst src, _, s => .done () (s.setMem dst (s.mem src))
  | _, .write x off bytes, _, s => .done () (s.setMem x (splice (s.mem x) off bytes))
  | _, .lockTable, p, s =>
      if s.lock = none then .done () { s with lock := some p } else .blocked
  | _, .unlockTable, _, s => .done () { s with lock := none }
  | _, .proc q, _, s => .done (s.proc q) s
  | _, .setState q state, _, s => .done () (s.setProc q { s.proc q with state := state })
  | _, .setSz q sz, _, s => .done () (s.setProc q { s.proc q with sz := sz })
  | _, .setPgdir q pgdir, _, s =>
      .done () (s.setProc q { s.proc q with pgdir := pgdir })
  | _, .setKstack q kstack, _, s =>
      .done () (s.setProc q { s.proc q with kstack := kstack })
  | _, .setParent q parent, _, s =>
      .done () (s.setProc q { s.proc q with parent := parent })
  | _, .setTf q tf, _, s => .done () (s.setProc q { s.proc q with tf := tf })

end PiKernel.Vm
