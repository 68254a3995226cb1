import PiKernel.Vm.Teardown
import PiKernel.Vm.Growth

/-!
# The bytes of an address space

What a process finds at its addresses: the pages at the leaves of its tables, and their
bytes.  Pages that agree have the same bytes, and a write changes those it covers.
-/

namespace PiKernel.Vm

open PiKernel.Bytes
open PiKernel.Conc
open PiKernel.Conc.Prog (perform)

variable {Pid : Type}

/-- The page that the page table maps at an address. -/
def mappedPage (mem : Nat → Page) (pgdir va : Nat) : Option Nat :=
  (links mem).follow pgdir (walkPath va 4 0)

/-- The byte at an address, if a page is mapped there. -/
def byteOf (mem : Nat → Page) (pgdir va : Nat) : Option UInt8 :=
  (mappedPage mem pgdir va).map fun x => byteAt (mem x) (va % PGSIZE)

/-! ## The address space of a machine -/

section Read

variable {kernelEnd : Nat} {p : Pid} {s s' : Machine Pid} {roots : Set (Nat × Nat)}
  {pgdir dir k va n x : Nat} {page : Page} {path : List Nat}

theorem walkPath_leaf : walkPath va 4 0 = leafPath (va / PGSIZE) := by
  rw [leafPath, walkPath_number]
  rfl

theorem mappedPage_eq (keeps : (s.view kernelEnd p).Keeps roots) (tree : (pgdir, 4) ∈ roots) :
    mappedPage s.mem pgdir va = (s.view kernelEnd p).mapped pgdir (va / PGSIZE) := by
  rw [mappedPage, Heap.mapped, ← walkPath_leaf]
  exact Machine.follow_view keeps tree (by rw [walkPath_length])

theorem page_lt (low : va < 2 ^ 48) : va / PGSIZE < PAGES := by
  simp only [PGSIZE, PAGES]
  omega

/-- All addresses below some pages are mapped, and no others. -/
theorem contiguous_iff (keeps : (s.view kernelEnd p).Keeps roots)
    (tree : (pgdir, 4) ∈ roots) :
    (∀ va, va < 2 ^ 48 → ((mappedPage s.mem pgdir va).isSome ↔ va < k * PGSIZE)) ↔
      Contiguous (s.view kernelEnd p) pgdir k := by
  constructor
  · intro exactly n low
    have here := exactly (n * PGSIZE) (by simp only [PAGES, PGSIZE] at low ⊢; omega)
    rw [mappedPage_eq keeps tree, Nat.mul_div_cancel _ (by decide)] at here
    rw [here]
    exact Nat.mul_lt_mul_right (by decide)
  · intro contiguous va low
    rw [mappedPage_eq keeps tree, contiguous _ (page_lt low)]
    exact Nat.div_lt_iff_lt_mul (by decide)

/-- What agrees in the hands of the process agrees in memory. -/
theorem Agree.bytes (agree : Agree (s.view kernelEnd p) (s'.view kernelEnd p) pgdir (va / PGSIZE))
    (keeps : (s.view kernelEnd p).Keeps roots) (keeps' : (s'.view kernelEnd p).Keeps roots)
    (tree : (pgdir, 4) ∈ roots) :
    mappedPage s'.mem pgdir va = mappedPage s.mem pgdir va ∧
      byteOf s'.mem pgdir va = byteOf s.mem pgdir va := by
  have same : mappedPage s'.mem pgdir va = mappedPage s.mem pgdir va := by
    rw [mappedPage_eq keeps' tree, mappedPage_eq keeps tree, agree.1]
  refine ⟨same, ?_⟩
  rw [byteOf, byteOf, same]
  cases found : mappedPage s.mem pgdir va with
  | none => rfl
  | some y =>
      rw [mappedPage_eq keeps tree] at found
      have held := Forest.mem keeps pgdir 4 tree (leafPath (va / PGSIZE)) y
        leafPath_length.le found
      rcases Heap.mem_owned.mp held with ⟨page, here⟩
      have there := (agree.2 y found).trans here
      rw [Option.map_some, Option.map_some, (Machine.view_page_eq_some here).2.2,
        (Machine.view_page_eq_some there).2.2]

theorem byteOf_zero {y : Nat} (keeps : (s.view kernelEnd p).Keeps roots)
    (tree : (pgdir, 4) ∈ roots)
    (found : (s.view kernelEnd p).mapped pgdir (va / PGSIZE) = some y)
    (zero : (s.view kernelEnd p).page y = some (filled 0)) : byteOf s.mem pgdir va = some 0 := by
  rw [byteOf, mappedPage_eq keeps tree, found, Option.map_some,
    (Machine.view_page_eq_some zero).2.2, byteAt, dif_pos (Nat.mod_lt _ (by decide))]
  rfl

/-- A page of an address space is written. -/
theorem view_setMem_mapped (keeps : (s.view kernelEnd p).Keeps roots) (tree : (pgdir, 4) ∈ roots)
    (found : mappedPage s.mem pgdir va = some x) :
    ∃ usable, (s.setMem x page).view kernelEnd p = (s.view kernelEnd p).put x page usable ∧
      (s.view kernelEnd p).links.follow pgdir (walkPath va 4 0) = some x := by
  rw [mappedPage, Machine.follow_view keeps tree (by rw [walkPath_length])] at found
  rcases Heap.mem_owned.mp
    (Forest.mem keeps pgdir 4 tree _ x (by rw [walkPath_length]) found) with ⟨before, here⟩
  exact ⟨_, Machine.view_setMem here (Heap.usable_of_page here), found⟩

theorem setMem_keeps (keeps : (s.view kernelEnd p).Keeps roots) (tree : (pgdir, 4) ∈ roots)
    (found : mappedPage s.mem pgdir va = some x) :
    ((s.setMem x page).view kernelEnd p).Keeps roots := by
  rcases view_setMem_mapped keeps tree found with ⟨usable, viewed, leaf⟩
  rw [viewed]
  exact keeps.rewrite_leaf tree walkPath_length leaf

/-- What is written to a page of an address space changes no way through the tables. -/
theorem follow_setMem (keeps : (s.view kernelEnd p).Keeps roots) (tree : (pgdir, 4) ∈ roots)
    (tree' : (dir, 4) ∈ roots) (found : mappedPage s.mem pgdir va = some x)
    (short : path.length ≤ 4) :
    (links (s.setMem x page).mem).follow dir path = (links s.mem).follow dir path := by
  rcases view_setMem_mapped keeps tree found with ⟨usable, viewed, leaf⟩
  rw [Machine.follow_view (setMem_keeps keeps tree found) tree' short,
    Machine.follow_view keeps tree' short, viewed]
  refine Links.follow_congr ?_ short
  intro way y shorter reached
  apply Heap.links_put_other
  rintro rfl
  have equal := Forest.once keeps dir 4 tree' pgdir 4 tree way _ y shorter.le
    (by rw [walkPath_length]) reached leaf
  rw [equal.2.2, walkPath_length] at shorter
  exact lt_irrefl _ shorter

/-- The pages that are mapped at different numbers are not more than memory has. -/
theorem Heap.few_mapped {h : Heap kernelEnd} (keeps : h.Keeps roots) (tree : (pgdir, 4) ∈ roots)
    (number : Nat → Nat)
    (distinct : ∀ i j, i < n → j < n → number i % PAGES = number j % PAGES → i = j)
    (mapped : ∀ i, i < n → (h.mapped pgdir (number i)).isSome) : n ≤ PHYSTOP / PGSIZE := by
  have found : ∀ i ∈ Finset.range n, ∃ y, h.mapped pgdir (number i) = some y :=
    fun i member => Option.isSome_iff_exists.mp (mapped i (Finset.mem_range.mp member))
  have into : ∀ i ∈ Finset.range n,
      (h.mapped pgdir (number i)).getD 0 ∈ Finset.range (PHYSTOP / PGSIZE) := by
    intro i member
    rcases found i member with ⟨y, leaf⟩
    have top := (h.usable y (Forest.mem keeps pgdir 4 tree _ y leafPath_length.le leaf)).2
    rw [leaf, Option.getD_some, Finset.mem_range]
    simp only [PHYSTOP, PGSIZE] at top ⊢
    omega
  have few := Finset.card_le_card_of_injOn _ into (by
    intro i member j member' same
    rcases found i member with ⟨y, leaf⟩
    rcases found j member' with ⟨z, leaf'⟩
    simp only [leaf, leaf', Option.getD_some] at same
    subst same
    have equal := Forest.once keeps pgdir 4 tree pgdir 4 tree _ _ y leafPath_length.le
      leafPath_length.le leaf leaf'
    exact distinct i j (Finset.mem_range.mp member) (Finset.mem_range.mp member')
      (leafPath_mod equal.2.2))
  rwa [Finset.card_range, Finset.card_range] at few

end Read

/-! ## Contents -/

section Contents

variable {kernelEnd : Nat} {R : Rules kernelEnd Pid} {h h' : Heap kernelEnd}
  {roots : Set (Nat × Nat)} {pgdir k n m t y va off : Nat} {page : Page} {bytes : List UInt8}
  {content : Nat → UInt8}

/-- The byte at an address of an address space. -/
def Heap.byte (h : Heap kernelEnd) (pgdir va : Nat) : Option UInt8 :=
  (h.mapped pgdir (va / PGSIZE)).bind fun y =>
    (h.page y).map fun page => byteAt page (va % PGSIZE)

theorem Heap.byte_eq (found : h.mapped pgdir (va / PGSIZE) = some y)
    (here : h.page y = some page) : h.byte pgdir va = some (byteAt page (va % PGSIZE)) := by
  rw [Heap.byte, found, Option.bind_some, here, Option.map_some]

theorem Agree.byte (agree : Agree h h' pgdir (va / PGSIZE)) :
    h'.byte pgdir va = h.byte pgdir va := by
  rw [Heap.byte, Heap.byte, agree.1]
  cases found : h.mapped pgdir (va / PGSIZE) with
  | none => rfl
  | some y => rw [Option.bind_some, Option.bind_some, agree.2 y found]

/-- The bytes of the first `k` pages. -/
def Holds (h : Heap kernelEnd) (pgdir k : Nat) (content : Nat → UInt8) : Prop :=
  ∀ va, va < k * PGSIZE → h.byte pgdir va = some (content va)

/-- The contents with some bytes replaced. -/
def patched (content : Nat → UInt8) (addr : Nat) (bytes : List UInt8) : Nat → UInt8 :=
  fun va => if addr ≤ va ∧ va < addr + bytes.length then bytes.getD (va - addr) 0
    else content va

theorem patched_nil {addr : Nat} : patched content addr [] = content := by
  funext va
  rw [patched, if_neg]
  rw [List.length_nil]
  omega

theorem Holds.agree (holds : Holds h pgdir k content)
    (agree : ∀ n, n < k → Agree h h' pgdir n) : Holds h' pgdir k content := by
  intro va below
  have inside : va / PGSIZE < k := (Nat.div_lt_iff_lt_mul (by decide)).mpr below
  rw [(agree _ inside).byte, holds va below]

/-- New pages are zero. -/
theorem Holds.grown (holds : Holds h pgdir k content) (grown : Grown h h' pgdir k m)
    (bound : m ≤ PAGES) (zero : ∀ va, k * PGSIZE ≤ va → content va = 0) :
    Holds h' pgdir m content := by
  intro va below
  have inside : va / PGSIZE < m := (Nat.div_lt_iff_lt_mul (by decide)).mpr below
  by_cases old : va < k * PGSIZE
  · have inside' : va / PGSIZE < k := (Nat.div_lt_iff_lt_mul (by decide)).mpr old
    rw [(grown.old _ (by omega) inside').byte, holds va old]
  · have above : k ≤ va / PGSIZE := (Nat.le_div_iff_mul_le (by decide)).mpr (by omega)
    rcases grown.new _ above inside with ⟨y, found, fresh⟩
    have within : va % PGSIZE < PGSIZE := Nat.mod_lt _ (by decide)
    rw [Heap.byte_eq found fresh, zero va (by omega), byteAt, dif_pos within]
    rfl

/-- A page of the process is on no way to another one. -/
theorem mapped_put {usable : Usable kernelEnd y} (keeps : h.Keeps roots)
    (tree : (pgdir, 4) ∈ roots) (found : h.mapped pgdir n = some y) :
    (h.put y page usable).mapped pgdir m = h.mapped pgdir m := by
  refine Links.follow_congr ?_ leafPath_length.le
  intro before z short found'
  apply Heap.links_put_other
  rintro rfl
  have equal := Forest.once keeps pgdir 4 tree pgdir 4 tree before (leafPath n) z short.le
    leafPath_length.le found' found
  rw [equal.2.2, leafPath_length] at short
  exact lt_irrefl _ short

/-- The page at `n` gets some bytes. -/
theorem Holds.put (holds : Holds h pgdir k content) (keeps : h.Keeps roots)
    (tree : (pgdir, 4) ∈ roots) (found : h.mapped pgdir n = some y)
    (here : h.page y = some page) (usable : Usable kernelEnd y) (low : n < PAGES)
    (bound : k ≤ PAGES) (fits : off + bytes.length ≤ PGSIZE) :
    Holds (h.put y (splice page off bytes) usable) pgdir k
      (patched content (n * PGSIZE + off) bytes) := by
  intro va below
  have inside : va / PGSIZE < k := (Nat.div_lt_iff_lt_mul (by decide)).mpr below
  have split : va = va / PGSIZE * PGSIZE + va % PGSIZE := (Nat.div_add_mod' va PGSIZE).symm
  have within : va % PGSIZE < PGSIZE := Nat.mod_lt _ (by decide)
  have ways : ∀ m, (h.put y (splice page off bytes) usable).mapped pgdir m =
      h.mapped pgdir m := fun m => mapped_put keeps tree found
  have before := holds va below
  by_cases here' : va / PGSIZE = n
  · rw [Heap.byte_eq (here' ▸ found) here, Option.some.injEq] at before
    rw [Heap.byte_eq ((ways _).trans (here' ▸ found)) Heap.put_page_same, Option.some.injEq,
      patched]
    rw [here'] at split
    by_cases covered : off ≤ va % PGSIZE ∧ va % PGSIZE < off + bytes.length
    · have index : va % PGSIZE = off + (va % PGSIZE - off) := by omega
      have inside' : va % PGSIZE - off < bytes.length := by omega
      have same : va - (n * PGSIZE + off) = va % PGSIZE - off := by omega
      rw [if_pos (by omega), same, index, byteAt_splice_inside inside' fits, ← index,
        List.getD_eq_getElem _ _ inside']
    · rw [if_neg (by omega), byteAt_splice_outside (by omega), before]
  · have apart : va / PGSIZE * PGSIZE + PGSIZE ≤ n * PGSIZE ∨
        n * PGSIZE + PGSIZE ≤ va / PGSIZE * PGSIZE := by
      rcases Nat.lt_or_gt_of_ne here' with less | more
      · exact Or.inl (by rw [← Nat.succ_mul]; exact Nat.mul_le_mul_right _ less)
      · exact Or.inr (by rw [← Nat.succ_mul]; exact Nat.mul_le_mul_right _ more)
    have other : Agree h (h.put y (splice page off bytes) usable) pgdir (va / PGSIZE) := by
      refine ⟨ways _, fun z found' => Heap.put_page_other ?_⟩
      rintro rfl
      have equal := Forest.once keeps pgdir 4 tree pgdir 4 tree (leafPath n)
        (leafPath (va / PGSIZE)) z leafPath_length.le leafPath_length.le found found'
      exact here' (leafPath_injective low (lt_of_lt_of_le inside bound) equal.2.2).symm
    rw [other.byte, before, patched, if_neg (by omega)]

end Contents

end PiKernel.Vm
