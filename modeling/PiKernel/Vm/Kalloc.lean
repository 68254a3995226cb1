import PiKernel.Vm.FreeList
import Mathlib.Logic.Relation

/-!
# The page allocator

Every page is free or in somebody's hands, from `free_range` on and in any order of the critical
sections of `kalloc` and `kfree`.  Whoever has a page may write to it, so the pages in hand are
also those whose links are gone.
-/

namespace PiKernel.Vm

open PiKernel.Conc
open PiKernel.Conc.Prog (perform)

variable {s s' : Kmem} {kend vstart vend v r p n fuel : Nat} {free : List Nat}

/-! ## `free_range` -/

/-- So many pages from `p` on. -/
def pagesFrom (p n : Nat) : List Nat := (List.range n).map fun k => p + k * PGSIZE

/-- The pages that lie inside some bounds. -/
def pagesInside (vstart vend : Nat) : List Nat :=
  pagesFrom (ROUNDUP vstart PGSIZE) ((vend - ROUNDUP vstart PGSIZE) / PGSIZE)

theorem pagesFrom_zero : pagesFrom p 0 = [] :=
  rfl

theorem pagesFrom_succ : pagesFrom p (n + 1) = p :: pagesFrom (p + PGSIZE) n := by
  rw [pagesFrom, List.range_succ_eq_map, List.map_cons, List.map_map, Nat.zero_mul, Nat.add_zero]
  congr 1
  apply List.map_congr_left
  intro k _
  simp only [Function.comp_apply, Nat.succ_eq_add_one]
  ring

theorem mem_pagesFrom (aligned : p % PGSIZE = 0) :
    v ∈ pagesFrom p n ↔ v % PGSIZE = 0 ∧ p ≤ v ∧ v < p + n * PGSIZE := by
  simp only [pagesFrom, List.mem_map, List.mem_range, PGSIZE] at aligned ⊢
  constructor
  · rintro ⟨k, below, rfl⟩
    omega
  · rintro ⟨aligned', above, below⟩
    exact ⟨(v - p) / 2 ^ 12, by omega, by omega⟩

/-- A page lies wholly inside the bounds. -/
theorem mem_pagesInside :
    v ∈ pagesInside vstart vend ↔ v % PGSIZE = 0 ∧ vstart ≤ v ∧ v + PGSIZE ≤ vend := by
  rw [pagesInside, mem_pagesFrom]
  · simp only [ROUNDUP, ROUNDDOWN, PGSIZE]
    omega
  · simp only [ROUNDUP, ROUNDDOWN, PGSIZE]
    omega

theorem pagesFrom_nodup : (pagesFrom p n).Nodup := by
  apply List.Nodup.map _ List.nodup_range
  intro k l same
  simp only [PGSIZE] at same
  omega

namespace Kmem

/-- The loop frees the pages from `p` on, or one of them is refused. -/
theorem Free.freeRangeLoop (holds : s.Free free) (aligned : p % PGSIZE = 0) (fits : p < 2 ^ 64)
    (later : ∀ v ∈ free, v < p) (enough : (vend - p) / PGSIZE < fuel)
    (freed : Kmem.freeRangeLoop kend vend fuel p s = some s') :
    s'.Free ((pagesFrom p ((vend - p) / PGSIZE)).reverse ++ free) ∧
      ∀ v ∈ pagesFrom p ((vend - p) / PGSIZE), PageAddress v ∧ kend ≤ v := by
  induction fuel generalizing s p free with
  | zero => exact absurd enough (Nat.not_lt_zero _)
  | succ fuel ih =>
      rw [Kmem.freeRangeLoop] at freed
      by_cases more : (p + PGSIZE) % 2 ^ 64 ≤ vend
      · rw [if_pos more] at freed
        rcases Option.bind_eq_some_iff.mp freed with ⟨s₁, first, rest⟩
        rcases kfree_eq_some first with ⟨_, above, physical, rfl⟩
        have address : PageAddress p := ⟨fits, aligned, physical⟩
        have fits' := address.add_lt
        rw [Nat.mod_eq_of_lt fits'] at more rest
        have split : (vend - p) / PGSIZE = (vend - (p + PGSIZE)) / PGSIZE + 1 := by
          simp only [PGSIZE] at more ⊢
          omega
        have new : p ∉ free := fun member => lt_irrefl p (later p member)
        have tail := ih (holds.push address new) (by rw [Nat.add_mod_right, aligned]) fits'
          (by
            intro v member
            rcases List.mem_cons.mp member with rfl | member
            · exact Nat.lt_add_of_pos_right (by decide)
            · exact (later v member).trans (Nat.lt_add_of_pos_right (by decide)))
          (by omega) rest
        rw [split, pagesFrom_succ, List.reverse_cons, List.append_assoc, List.singleton_append]
        refine ⟨tail.1, ?_⟩
        intro v member
        rcases List.mem_cons.mp member with rfl | member
        · exact ⟨address, above⟩
        · exact tail.2 v member
      · rw [if_neg more] at freed
        have none : (vend - p) / PGSIZE = 0 := by
          simp only [PGSIZE] at more aligned ⊢
          omega
        rw [none, pagesFrom_zero]
        cases freed
        exact ⟨holds, fun v member => by cases member⟩

/-- From an empty list on, `free_range` frees exactly the pages inside the bounds. -/
theorem freeRange_free (empty : s.freeList = 0) (fits : vstart < 2 ^ 64)
    (freed : s.freeRange kend vstart vend = some s') :
    s'.Free (pagesInside vstart vend).reverse ∧
      ∀ v ∈ pagesInside vstart vend, PageAddress v ∧ kend ≤ v := by
  have start : s.Free [] := ⟨empty, fun v member => nomatch member⟩
  rw [freeRange] at freed
  by_cases wraps : vstart + PGSIZE - 1 < 2 ^ 64
  · have first : ROUNDDOWN ((vstart + PGSIZE - 1) % 2 ^ 64) PGSIZE = ROUNDUP vstart PGSIZE := by
      rw [Nat.mod_eq_of_lt wraps, ROUNDUP]
    rw [first] at freed
    have loop := start.freeRangeLoop
      (by
        simp only [ROUNDUP, ROUNDDOWN, PGSIZE]
        omega)
      (by
        simp only [ROUNDUP, ROUNDDOWN, PGSIZE] at wraps ⊢
        omega)
      (fun v member => nomatch member)
      (Nat.lt_succ_of_le (Nat.div_le_div_right (Nat.sub_le _ _))) freed
    rw [List.append_nil] at loop
    exact loop
  · -- The bounds end at the last address; the first page that is tried is 0.
    have first : ROUNDDOWN ((vstart + PGSIZE - 1) % 2 ^ 64) PGSIZE = 0 := by
      simp only [ROUNDDOWN, PGSIZE] at wraps ⊢
      omega
    rw [first] at freed
    have loop := start.freeRangeLoop (Nat.zero_mod _) (Nat.two_pow_pos 64)
      (fun v member => nomatch member)
      (Nat.lt_succ_of_le (Nat.div_le_div_right (Nat.sub_le _ _))) freed
    have few : (vend - 0) / PGSIZE = 0 := by
      cases count : (vend - 0) / PGSIZE with
      | zero => rfl
      | succ n =>
          rw [count, pagesFrom_succ] at loop
          exact absurd rfl (loop.2 0 List.mem_cons_self).1.not_zero
    have none : (vend - ROUNDUP vstart PGSIZE) / PGSIZE = 0 := by
      simp only [PGSIZE] at few ⊢
      omega
    rw [few, pagesFrom_zero, List.append_nil] at loop
    rw [pagesInside, none, pagesFrom_zero]
    exact loop

/-- Bounds within the memory behind the kernel are accepted. -/
theorem freeRange_accepts (behind : KERNBASE ≤ kend) (above : kend ≤ vstart)
    (ordered : vstart ≤ vend) (below : vend ≤ P2V PHYSTOP) :
    ∃ s', s.freeRange kend vstart vend = some s' := by
  have stop : P2V PHYSTOP = KERNBASE + PHYSTOP := by decide
  rw [stop] at below
  have top : KERNBASE + PHYSTOP + 2 * PGSIZE < 2 ^ 64 := by decide
  suffices loop : ∀ fuel p s, kend ≤ p → p % PGSIZE = 0 → p < vend + PGSIZE →
      ∃ s', freeRangeLoop kend vend fuel p s = some s' by
    have straight : vstart + PGSIZE - 1 < 2 ^ 64 := by omega
    rw [freeRange, Nat.mod_eq_of_lt straight]
    apply loop
    · simp only [ROUNDDOWN, PGSIZE]
      omega
    · simp only [ROUNDDOWN, PGSIZE]
      omega
    · simp only [ROUNDDOWN, PGSIZE]
      omega
  intro fuel
  induction fuel with
  | zero => exact fun p s _ _ _ => ⟨s, rfl⟩
  | succ fuel ih =>
      intro p s low aligned bound
      rw [freeRangeLoop, Nat.mod_eq_of_lt (by omega)]
      split
      · rename_i more
        have address : PageAddress p := by
          refine ⟨by omega, aligned, ?_⟩
          simp only [V2P, KERNBASE, PHYSTOP, PGSIZE] at behind below more ⊢
          omega
        rw [kfree_accepts address low, Option.bind_some]
        apply ih
        · omega
        · rw [Nat.add_mod_right, aligned]
        · omega
      · exact ⟨s, rfl⟩

end Kmem

/-! ## Runs -/

/-- The allocator, and the pages that have been given out. -/
structure Pool where
  kmem : Kmem
  outstanding : Finset Nat

/-- The critical sections of `kalloc` and `kfree`, and writes to pages that are in hand. -/
inductive Pool.Step (kend : Nat) : Pool → Pool → Prop where
  | kalloc {s s' : Kmem} {out : Finset Nat} {r : Nat} (taken : s.pop = (r, s'))
      (found : r ≠ 0) : Step kend ⟨s, out⟩ ⟨s', insert r out⟩
  | kallocFails {s s' : Kmem} {out : Finset Nat} (taken : s.pop = (0, s')) :
      Step kend ⟨s, out⟩ ⟨s', out⟩
  | write {s : Kmem} {out : Finset Nat} {v : Nat} (page : Page) (mine : v ∈ out) :
      Step kend ⟨s, out⟩ ⟨s.setPage v page, out⟩
  | kfree {s s' : Kmem} {out : Finset Nat} {v : Nat} (mine : v ∈ out)
      (freed : s.kfree kend v = some s') : Step kend ⟨s, out⟩ ⟨s', out.erase v⟩

/-- The pages are the free ones and the outstanding ones. -/
structure Pool.Splits (pool : Pool) (pages free : List Nat) : Prop where
  holds : pool.kmem.Free free
  cover : ∀ v, v ∈ pages ↔ v ∈ free ∨ v ∈ pool.outstanding
  apart : ∀ v, v ∈ free → v ∉ pool.outstanding

namespace Pool

variable {pool pool' : Pool} {pages : List Nat}

/-- One step keeps the free list and the outstanding pages apart. -/
theorem Splits.step (splits : pool.Splits pages free)
    (address : ∀ v ∈ pages, PageAddress v) (step : Step kend pool pool') :
    ∃ free', pool'.Splits pages free' := by
  rcases splits with ⟨holds, cover, apart⟩
  cases step with
  | @kalloc s s' out r taken found =>
      cases free with
      | nil =>
          rw [holds.pop_nil] at taken
          cases taken
          exact absurd rfl found
      | cons v rest =>
          rw [holds.pop.1] at taken
          cases taken
          have fresh := (List.nodup_cons.mp holds.chain.nodup).1
          refine ⟨rest, holds.pop.2, ?_, ?_⟩
          · intro w
            rw [cover w, List.mem_cons, Finset.mem_insert]
            tauto
          · intro w member
            rw [Finset.mem_insert, not_or]
            refine ⟨?_, apart w (List.mem_cons_of_mem _ member)⟩
            rintro rfl
            exact fresh member
  | @kallocFails s s' out taken =>
      cases free with
      | nil =>
          rw [holds.pop_nil] at taken
          cases taken
          exact ⟨[], holds, cover, apart⟩
      | cons v rest =>
          rw [holds.pop.1] at taken
          cases taken
          exact absurd rfl (holds.address 0 List.mem_cons_self).not_zero
  | @write s out v page mine =>
      have mine' : v ∈ pages := (cover v).mpr (Or.inr mine)
      exact ⟨free, holds.setPage (address v mine') fun member => apart v member mine, cover, apart⟩
  | @kfree s s' out v mine freed =>
      have mine' : v ∈ pages := (cover v).mpr (Or.inr mine)
      have new : v ∉ free := fun member => apart v member mine
      rcases Kmem.kfree_eq_some freed with ⟨_, _, _, rfl⟩
      refine ⟨v :: free, holds.push (address v mine') new, ?_, ?_⟩
      · intro w
        rw [cover w, List.mem_cons, Finset.mem_erase]
        by_cases same : w = v
        · subst same
          exact iff_of_true (Or.inr mine) (Or.inl (Or.inl rfl))
        · simp only [same, ne_eq, not_false_eq_true, true_and, false_or]
      · intro w member
        rw [Finset.mem_erase, not_and]
        intro other
        rcases List.mem_cons.mp member with here | member
        · exact absurd here other
        · exact apart w member

/-- Every run keeps them apart. -/
theorem Splits.run (splits : pool.Splits pages free)
    (address : ∀ v ∈ pages, PageAddress v)
    (run : Relation.ReflTransGen (Step kend) pool pool') :
    ∃ free', pool'.Splits pages free' := by
  induction run with
  | refl => exact ⟨free, splits⟩
  | tail _ step ih =>
      rcases ih with ⟨free₁, splits₁⟩
      exact splits₁.step address step

/-- What `kalloc` returns is not outstanding, or everything is. -/
theorem Splits.kalloc (splits : pool.Splits pages free) :
    (pool.kmem.kalloc.1 = 0 → ∀ v ∈ pages, v ∈ pool.outstanding) ∧
      (pool.kmem.kalloc.1 ≠ 0 →
        pool.kmem.kalloc.1 ∈ pages ∧ pool.kmem.kalloc.1 ∉ pool.outstanding) := by
  have same : pool.kmem.kalloc.1 = pool.kmem.pop.1 := by
    rw [Kmem.kalloc]
    split <;> rfl
  rw [same]
  cases free with
  | nil =>
      rw [splits.holds.pop_nil]
      refine ⟨fun _ v member => ?_, fun found => absurd rfl found⟩
      rcases (splits.cover v).mp member with free | out
      · cases free
      · exact out
  | cons v rest =>
      rw [splits.holds.pop.1]
      refine ⟨fun none => ?_, fun _ => ⟨?_, splits.apart v List.mem_cons_self⟩⟩
      · exact absurd none (splits.holds.address v List.mem_cons_self).not_zero
      · exact (splits.cover v).mpr (Or.inl List.mem_cons_self)

/-- `kalloc` is its critical section, and a write to the page that it has found. -/
theorem kalloc_run (pool : Pool) :
    Relation.ReflTransGen (Step kend) pool
      ⟨pool.kmem.kalloc.2,
        if pool.kmem.kalloc.1 = 0 then
          pool.outstanding
        else
          insert pool.kmem.kalloc.1 pool.outstanding⟩ := by
  by_cases found : pool.kmem.pop.1 = 0
  · have call : pool.kmem.kalloc = pool.kmem.pop := if_neg (not_not.mpr found)
    rw [call, if_pos found]
    exact .single (.kallocFails (Prod.ext found rfl))
  · have call : pool.kmem.kalloc =
        (pool.kmem.pop.1, pool.kmem.pop.2.setPage pool.kmem.pop.1 (filled 5)) := if_pos found
    rw [call, if_neg found]
    exact .tail (.single (.kalloc rfl found)) (.write (filled 5) (Finset.mem_insert_self ..))

end Pool

/--
`free_range` frees exactly the pages inside its bounds, each once; it stops at a page that is
none of the memory behind the kernel.  From then on every page is free or outstanding, the free
list has no cycle, and `kalloc` returns a page that is free as long as there is one.
-/
theorem freeRange_kalloc_kfree (empty : s.freeList = 0) (fits : vstart < 2 ^ 64) :
    (KERNBASE ≤ kend → kend ≤ vstart → vstart ≤ vend → vend ≤ P2V PHYSTOP →
      ∃ s', s.freeRange kend vstart vend = some s') ∧
    ∀ s', s.freeRange kend vstart vend = some s' →
      Chain s'.next 0 s'.freeList (pagesInside vstart vend).reverse ∧
      (pagesInside vstart vend).Nodup ∧
      (∀ v, v ∈ pagesInside vstart vend ↔
        v % PGSIZE = 0 ∧ vstart ≤ v ∧ v + PGSIZE ≤ vend) ∧
      ∀ pool, Relation.ReflTransGen (Pool.Step kend) ⟨s', ∅⟩ pool →
        (∃ free, Chain pool.kmem.next 0 pool.kmem.freeList free ∧ free.Nodup ∧
          (∀ v, v ∈ pagesInside vstart vend ↔ v ∈ free ∨ v ∈ pool.outstanding) ∧
          ∀ v, v ∈ free → v ∉ pool.outstanding) ∧
        (pool.kmem.kalloc.1 = 0 → ∀ v ∈ pagesInside vstart vend, v ∈ pool.outstanding) ∧
        (pool.kmem.kalloc.1 ≠ 0 → pool.kmem.kalloc.1 ∈ pagesInside vstart vend ∧
          pool.kmem.kalloc.1 ∉ pool.outstanding) ∧
        ∀ v ∈ pool.outstanding, ∃ s'', pool.kmem.kfree kend v = some s'' := by
  refine ⟨fun behind above ordered below => Kmem.freeRange_accepts behind above ordered below, ?_⟩
  intro s' freed
  rcases Kmem.freeRange_free empty fits freed with ⟨holds, accepted⟩
  have start : Pool.Splits ⟨s', ∅⟩ (pagesInside vstart vend) (pagesInside vstart vend).reverse := by
    constructor
    · exact holds
    · intro v
      rw [List.mem_reverse]
      exact (or_iff_left (Finset.notMem_empty v)).symm
    · exact fun v _ => Finset.notMem_empty v
  refine ⟨holds.chain, pagesFrom_nodup, fun v => mem_pagesInside, ?_⟩
  intro pool run
  rcases start.run (fun v member => (accepted v member).1) run with ⟨free, splits⟩
  refine ⟨⟨free, splits.holds.chain, splits.holds.chain.nodup, splits.cover, splits.apart⟩,
    splits.kalloc.1, splits.kalloc.2, ?_⟩
  intro v out
  have member := (splits.cover v).mpr (Or.inr out)
  exact ⟨_, Kmem.kfree_accepts (accepted v member).1 (accepted v member).2⟩

/-- The memory before the allocator is initialised. -/
def beforeInit : Kmem where
  mem _ := filled 0
  freeList := 0

/-- Of three pages the first is cut short; the last is taken and given back. -/
theorem freeRange_kalloc_kfree_three :
    ∃ s' s'', beforeInit.freeRange KERNBASE (KERNBASE + 1) (KERNBASE + 3 * PGSIZE) = some s' ∧
      s'.kalloc.1 = KERNBASE + 2 * PGSIZE ∧
      s'.kalloc.2.kfree KERNBASE (KERNBASE + 2 * PGSIZE) = some s'' ∧
      s''.kalloc.1 ∈ [KERNBASE + PGSIZE, KERNBASE + 2 * PGSIZE] := by
  have allocator : _ ∧ ∀ s',
      beforeInit.freeRange KERNBASE (KERNBASE + 1) (KERNBASE + 3 * PGSIZE) = some s' → _ :=
    freeRange_kalloc_kfree rfl (by decide)
  rcases allocator.1 (by decide) (by decide) (by decide) (by decide) with ⟨s', freed⟩
  rcases allocator.2 s' freed with ⟨chain, _, _, always⟩
  have pages : pagesInside (KERNBASE + 1) (KERNBASE + 3 * PGSIZE) =
      [KERNBASE + PGSIZE, KERNBASE + 2 * PGSIZE] := by
    decide
  rw [pages] at chain always
  have found : s'.kalloc.1 = KERNBASE + 2 * PGSIZE := by
    have first : s'.pop.1 = KERNBASE + 2 * PGSIZE := by
      rw [Kmem.pop, chain.head]
      rfl
    rw [Kmem.kalloc, first]
    rfl
  have taken : Relation.ReflTransGen (Pool.Step KERNBASE) ⟨s', ∅⟩ ⟨s'.kalloc.2, _⟩ :=
    Pool.kalloc_run ⟨s', ∅⟩
  dsimp only at taken
  rw [found, if_neg (by decide), insert_empty_eq] at taken
  rcases (always _ taken).2.2.2 _ (Finset.mem_singleton_self _) with ⟨s'', given⟩
  have back := taken.tail (.kfree (Finset.mem_singleton_self _) given)
  rw [Finset.erase_singleton] at back
  have again := always _ back
  refine ⟨s', s'', freed, found, given, (again.2.2.1 fun none => ?_).1⟩
  exact Finset.notMem_empty _ (again.2.1 none _ List.mem_cons_self)

/-! ## The free list as a list -/

section Implements

variable {Pid : Type} [DecidableEq Pid] {p : Pid} {m : Machine Pid} {kernelEnd : Nat}

/-- The free list of a `Machine` is the one in memory; free pages hold links. -/
structure Kmem.Implements (s : Kmem) (m : Machine Pid) : Prop where
  list : ∃ free, s.Free free ∧ m.freeList = free.map pageNumber
  mem : ∀ x, x ∉ m.freeList → s.mem x = m.mem x

/-- `kalloc` in memory does what it does on a `Machine`. -/
theorem Kmem.Implements.kalloc (implements : s.Implements m) :
    ∃ m', machine.Completes p Vm.kalloc m
        (if s.kalloc.1 = 0 then none else some (pageNumber s.kalloc.1)) m' ∧
      s.kalloc.2.Implements m' := by
  rcases implements.list with ⟨free, holds, list⟩
  cases free with
  | nil =>
      have empty : m.freeList = [] := list
      have same : s.kalloc = (0, s) := by
        rw [Kmem.kalloc, holds.pop_nil]
        exact if_neg (not_not.mpr rfl)
      rw [same, if_pos rfl]
      refine ⟨m, System.run_completes ?_, implements⟩
      simp [Vm.kalloc, System.run, machine, exec, empty]
  | cons v rest =>
      have address := holds.address v List.mem_cons_self
      have first : m.freeList = pageNumber v :: rest.map pageNumber := list
      let m₁ : Machine Pid := { m with freeList := rest.map pageNumber }
      have same : s.kalloc = (v, { s with freeList := s.next v }.setPage v (filled 5)) := by
        rw [Kmem.kalloc, holds.pop.1]
        exact if_pos address.not_zero
      rw [same, if_neg address.not_zero]
      refine ⟨m₁.setMem (pageNumber v) (filled 5), System.run_completes ?_, ?_⟩
      · simp [Vm.kalloc, System.run, machine, exec, first, m₁, perform]
      constructor
      · have fresh := (List.nodup_cons.mp holds.chain.nodup).1
        exact ⟨rest, holds.pop.2.setPage address fresh, rfl⟩
      · intro x taken
        change Function.update s.mem (pageNumber v) (filled 5) x =
          Function.update m.mem (pageNumber v) (filled 5) x
        by_cases here : x = pageNumber v
        · rw [here, Function.update_self, Function.update_self]
        · rw [Function.update_of_ne here, Function.update_of_ne here]
          apply implements.mem
          rw [first, List.mem_cons, not_or]
          exact ⟨here, taken⟩

/-- So does `kfree`. -/
theorem Kmem.Implements.kfree (implements : s.Implements m) (address : PageAddress v)
    (above : kend ≤ v) (above' : kernelEnd ≤ pageNumber v) (taken : pageNumber v ∉ m.freeList) :
    ∃ s' m', s.kfree kend v = some s' ∧
      machine.Completes p (Vm.kfree kernelEnd (pageNumber v)) m () m' ∧ s'.Implements m' := by
  rcases implements.list with ⟨free, holds, list⟩
  have new : v ∉ free := by
    intro member
    apply taken
    rw [list]
    exact List.mem_map_of_mem member
  have accepted : (Vm.kfree kernelEnd (pageNumber v) : Prog (Act Pid) Unit) =
      perform (.free (pageNumber v)) := by
    have physical := address.physical
    rw [Vm.kfree, if_neg]
    rw [Bool.or_eq_true, decide_eq_true_eq, decide_eq_true_eq, not_or, not_lt, ge_iff_le, not_le]
    exact ⟨above', lt_of_le_of_lt (Nat.div_mul_le_self _ _) physical⟩
  rw [accepted]
  let m' : Machine Pid := { m with freeList := pageNumber v :: m.freeList }
  refine ⟨_, m', Kmem.kfree_accepts address above, System.run_completes rfl, ?_⟩
  constructor
  · refine ⟨v :: free, holds.push address new, ?_⟩
    rw [List.map_cons, ← list]
  · intro x free'
    have here : x ≠ pageNumber v := by
      rintro rfl
      exact free' List.mem_cons_self
    change Function.update s.mem (pageNumber v) _ x = m.mem x
    rw [Function.update_of_ne here]
    exact implements.mem x fun member => free' (List.mem_cons_of_mem _ member)

end Implements

end PiKernel.Vm
