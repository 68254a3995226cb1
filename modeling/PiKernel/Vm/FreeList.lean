import PiKernel.Base.Linked
import PiKernel.Vm.Alone
import Mathlib.Data.Finset.Insert

/-!
# The free list in memory

`kalloc.c` keeps the list of free pages in these pages themselves: the first word of a page
points to the next one.  A page that is given out may be filled with anything, so the list
is in order as long as nobody writes to a page that is free.
-/

namespace PiKernel.Vm

open PiKernel.Bytes
open PiKernel.Conc

/-- First kernel virtual address. -/
def KERNBASE : Nat := 0xFFFF000000000000

def V2P (a : Nat) : Nat := (a + 2 ^ 64 - KERNBASE) % 2 ^ 64

def P2V (a : Nat) : Nat := (a + KERNBASE) % 2 ^ 64

/-- The number of the physical page with a kernel address. -/
def pageNumber (v : Nat) : Nat := V2P v / PGSIZE

/-! ## `kalloc.c` -/

/-- Physical memory, and `kmem.free_list`. -/
structure Kmem where
  mem : Nat → Page
  freeList : Nat

namespace Kmem

variable (s : Kmem) (kend : Nat)

/-- `r->next`. -/
def next (r : Nat) : Nat := readLE (s.mem (pageNumber r)) (V2P r % PGSIZE) 8

/-- New contents of the page at `v`. -/
def setPage (v : Nat) (page : Page) : Kmem :=
  { s with mem := Function.update s.mem (pageNumber v) page }

/-- `r->next = p`. -/
def setNext (r p : Nat) : Kmem :=
  s.setPage r (writeLE (s.mem (pageNumber r)) (V2P r % PGSIZE) 8 p)

/-- Free the page of physical memory pointed at by v; `none` for the panic. -/
def kfree (v : Nat) : Option Kmem :=
  if v % PGSIZE ≠ 0 ∨ v < kend ∨ V2P v ≥ PHYSTOP then
    none
  else
    some { s.setNext v s.freeList with freeList := v }

/-- The loop of `free_range` from `p` on. -/
def freeRangeLoop (vend : Nat) : Nat → Nat → Kmem → Option Kmem
  | 0, _, s => some s
  | fuel + 1, p, s =>
      if (p + PGSIZE) % 2 ^ 64 ≤ vend then
        (s.kfree kend p).bind (freeRangeLoop vend fuel ((p + PGSIZE) % 2 ^ 64))
      else
        some s

def freeRange (vstart vend : Nat) : Option Kmem :=
  freeRangeLoop kend vend (vend / PGSIZE + 1)
    (ROUNDDOWN ((vstart + PGSIZE - 1) % 2 ^ 64) PGSIZE) s

/-- The critical section of `kalloc`. -/
def pop : Nat × Kmem :=
  if s.freeList ≠ 0 then
    (s.freeList, { s with freeList := s.next s.freeList })
  else
    (0, s)

/-- Allocate one page of physical memory, filled with junk. -/
def kalloc : Nat × Kmem :=
  if s.pop.1 ≠ 0 then
    (s.pop.1, s.pop.2.setPage s.pop.1 (filled 5))
  else
    s.pop

end Kmem

/-! ## Kernel addresses of pages -/

/-- The kernel address of a page of physical memory. -/
structure PageAddress (v : Nat) : Prop where
  fits : v < 2 ^ 64
  aligned : v % PGSIZE = 0
  physical : V2P v < PHYSTOP

namespace PageAddress

variable {v w : Nat}

theorem base_le (address : PageAddress v) : KERNBASE ≤ v := by
  have fits := address.fits
  have physical := address.physical
  simp only [V2P, KERNBASE, PHYSTOP] at physical ⊢
  omega

theorem not_zero (address : PageAddress v) : v ≠ 0 := by
  have base := address.base_le
  simp only [KERNBASE] at base
  omega

theorem V2P_eq (address : PageAddress v) : V2P v = v - KERNBASE := by
  have fits := address.fits
  have base := address.base_le
  simp only [V2P, KERNBASE] at base ⊢
  omega

theorem offset (address : PageAddress v) : V2P v % PGSIZE = 0 := by
  have aligned := address.aligned
  have base := address.base_le
  rw [address.V2P_eq]
  simp only [KERNBASE, PGSIZE] at aligned base ⊢
  omega

/-- Different pages have different numbers. -/
theorem pageNumber_injective (address : PageAddress v) (address' : PageAddress w)
    (same : pageNumber v = pageNumber w) : v = w := by
  have aligned := address.offset
  have aligned' := address'.offset
  have base := address.base_le
  have base' := address'.base_le
  have real := address.V2P_eq
  have real' := address'.V2P_eq
  simp only [pageNumber, PGSIZE] at same aligned aligned'
  omega

/-- The next page is an address, too. -/
theorem add_lt (address : PageAddress v) : v + PGSIZE < 2 ^ 64 := by
  have physical := address.physical
  have base := address.base_le
  rw [address.V2P_eq] at physical
  simp only [KERNBASE, PHYSTOP, PGSIZE] at physical base ⊢
  omega

end PageAddress

/-! ## Links in pages -/

namespace Kmem

variable {s s' : Kmem} {kend v w p : Nat} {page : Page} {free : List Nat}

/-- The list pointer is not in the pages. -/
theorem next_freeList : Kmem.next { s with freeList := p } = s.next :=
  rfl

theorem next_setPage (address : PageAddress v) (address' : PageAddress w) (other : w ≠ v) :
    (s.setPage v page).next w = s.next w := by
  have differs : pageNumber w ≠ pageNumber v :=
    fun same => other (address'.pageNumber_injective address same)
  rw [next, next, setPage]
  change readLE (Function.update s.mem (pageNumber v) page (pageNumber w)) _ 8 = _
  rw [Function.update_of_ne differs]

theorem next_setNext (address : PageAddress v) (address' : PageAddress w) (fits : p < 2 ^ 64) :
    (s.setNext v p).next w = Function.update s.next v p w := by
  by_cases same : w = v
  · subst same
    have inside : V2P w % PGSIZE + 8 ≤ PGSIZE := by
      rw [address.offset]
      decide
    rw [Function.update_self, next, setNext, setPage]
    change readLE (Function.update s.mem (pageNumber w) _ (pageNumber w)) _ 8 = _
    rw [Function.update_self, readLE_writeLE_same inside]
    exact Nat.mod_eq_of_lt fits
  · rw [Function.update_of_ne same]
    exact next_setPage address address' same

/-- The free pages, in the order of the list. -/
structure Free (s : Kmem) (free : List Nat) : Prop where
  chain : Chain s.next 0 s.freeList free
  address : ∀ v ∈ free, PageAddress v

theorem Free.fits (holds : s.Free free) : s.freeList < 2 ^ 64 := by
  cases free with
  | nil =>
      have empty : s.freeList = 0 := holds.chain
      rw [empty]
      exact Nat.two_pow_pos 64
  | cons v rest =>
      rw [holds.chain.head]
      exact (holds.address v List.mem_cons_self).fits

theorem kfree_eq_some (freed : s.kfree kend v = some s') :
    v % PGSIZE = 0 ∧ kend ≤ v ∧ V2P v < PHYSTOP ∧
      s' = { s.setNext v s.freeList with freeList := v } := by
  rw [kfree] at freed
  split at freed
  · cases freed
  · rename_i accepted
    simp only [not_or, not_not, ge_iff_le, not_le, not_lt] at accepted
    exact ⟨accepted.1, accepted.2.1, accepted.2.2, (Option.some.inj freed).symm⟩

theorem kfree_accepts (address : PageAddress v) (above : kend ≤ v) :
    s.kfree kend v = some { s.setNext v s.freeList with freeList := v } := by
  rw [kfree, if_neg]
  simp only [not_or, not_not, ge_iff_le, not_le, not_lt]
  exact ⟨address.aligned, above, address.physical⟩

/-- A page that is not free is put in front of the list. -/
theorem Free.push (holds : s.Free free) (address : PageAddress v) (new : v ∉ free) :
    Free { s.setNext v s.freeList with freeList := v } (v :: free) := by
  have addresses : ∀ w ∈ v :: free, PageAddress w := by
    intro w member
    rcases List.mem_cons.mp member with rfl | member
    · exact address
    · exact holds.address w member
  refine ⟨?_, addresses⟩
  apply (holds.chain.push address.not_zero new).congr
  intro w member
  rw [next_freeList]
  exact next_setNext address (addresses w member) holds.fits

/-- The first page is taken from the list. -/
theorem Free.pop (holds : s.Free (v :: free)) :
    s.pop = (v, { s with freeList := s.next v }) ∧
      Free { s with freeList := s.next v } free := by
  have first := holds.chain.head
  have address := holds.address v List.mem_cons_self
  constructor
  · rw [Kmem.pop, first, if_pos address.not_zero]
  · refine ⟨?_, fun w member => holds.address w (List.mem_cons_of_mem v member)⟩
    rw [next_freeList]
    exact holds.chain.tail

theorem Free.pop_nil (holds : s.Free []) : s.pop = (0, s) := by
  have empty : s.freeList = 0 := holds.chain
  rw [Kmem.pop, if_neg (not_not.mpr empty)]

/-- A page that is not free may be filled with anything. -/
theorem Free.setPage (holds : s.Free free) (address : PageAddress v) (taken : v ∉ free) :
    (s.setPage v page).Free free := by
  refine ⟨?_, holds.address⟩
  apply holds.chain.congr
  intro w member
  apply next_setPage address (holds.address w member)
  rintro rfl
  exact taken member

end Kmem

end PiKernel.Vm
