import PiKernel.Vm.Alone
import PiKernel.Vm.Spaces

/-!
# Freeing address spaces

`wait` and `execve` call `vm_free(pgdir, 1)`.  `pgdir_walk` counts the levels from
0, so `vm_free` takes the tables of level 2 for last ones: it frees what they lead
to, which are the tables of level 3, and neither them nor the pages of the process.
-/

namespace PiKernel.Vm

open PiKernel.Conc

variable {Pid : Type} [DecidableEq Pid]

/-- The page tables that are built, one operation after the other. -/
inductive Built (kernelEnd : Nat) (p : Pid) : Machine Pid → List Nat → Prop where
  | start {s : Machine Pid} (sound : s.Sound kernelEnd) : Built kernelEnd p s []
  | pgdirInit {s s' : Machine Pid} {dirs : List Nat} {pgdir : Nat}
      (built : Built kernelEnd p s dirs)
      (done : machine.Completes p pgdirInit s pgdir s') : Built kernelEnd p s' (pgdir :: dirs)
  | uvmInit {s s' : Machine Pid} {dirs : List Nat} {pgdir : Nat} {binary : List UInt8}
      (built : Built kernelEnd p s dirs) (member : pgdir ∈ dirs)
      (done : machine.Completes p (uvmInit pgdir binary) s () s') : Built kernelEnd p s' dirs
  | uvmAlloc {s s' : Machine Pid} {dirs : List Nat} {pgdir oldsz newsz sz : Nat}
      (built : Built kernelEnd p s dirs) (member : pgdir ∈ dirs)
      (done : machine.Completes p (uvmAlloc kernelEnd pgdir oldsz newsz) s sz s') :
      Built kernelEnd p s' dirs
  | uvmDealloc {s s' : Machine Pid} {dirs : List Nat} {pgdir oldsz newsz sz : Nat}
      (built : Built kernelEnd p s dirs) (member : pgdir ∈ dirs)
      (done : machine.Completes p (uvmDealloc kernelEnd pgdir oldsz newsz) s sz s') :
      Built kernelEnd p s' dirs
  | copyuvm {s s' : Machine Pid} {dirs : List Nat} {pgdir sz : Nat} {copied : Option Nat}
      (built : Built kernelEnd p s dirs) (member : pgdir ∈ dirs)
      (done : machine.Completes p (copyuvm kernelEnd pgdir sz) s copied s') :
      Built kernelEnd p s' (copied.toList ++ dirs)

/-- The trees of some page tables. -/
def trees (dirs : List Nat) : Set (Nat × Nat) := {root | root.1 ∈ dirs ∧ root.2 = 4}

theorem trees_cons (pgdir : Nat) (dirs : List Nat) :
    trees (pgdir :: dirs) = insert (pgdir, 4) (trees dirs) := by
  ext ⟨r, height⟩
  constructor
  · rintro ⟨member, rfl⟩
    rcases List.mem_cons.mp member with rfl | old
    · exact Or.inl rfl
    · exact Or.inr ⟨old, rfl⟩
  · rintro (same | ⟨old, rfl⟩)
    · cases same
      exact ⟨List.mem_cons_self .., rfl⟩
    · exact ⟨List.mem_cons_of_mem _ old, rfl⟩

variable {kernelEnd : Nat} {p : Pid} {s s' : Machine Pid} {dirs : List Nat} {pgdir x : Nat}
  {path : List Nat} {roots : Set (Nat × Nat)}

/-- A program that completes leaves the trees which the rules promise. -/
theorem Machine.Sound.keeps {α : Type} {program : Prog (Act Pid) α} {value : α}
    (sound : s.Sound kernelEnd) (done : machine.Completes p program s value s')
    (roots : α → Set (Nat × Nat))
    (rule : (aloneRules kernelEnd p fun _ => True).wp program (s.view kernelEnd p)
      fun value h => h.Keeps (roots value)) :
    s'.Sound kernelEnd ∧ (s'.view kernelEnd p).Keeps (roots value) :=
  sound.of_completes done rule

/-- The page tables are disjoint trees of pages that are not free. -/
theorem Built.keeps (built : Built kernelEnd p s dirs) :
    s.Sound kernelEnd ∧ (s.view kernelEnd p).Keeps (trees dirs) := by
  let R := aloneRules kernelEnd p fun _ => True
  have panics : ∀ message, R.mayPanic message := fun _ => trivial
  have more : ∀ roots, R.live ⊆ roots := fun roots => Set.empty_subset roots
  induction built with
  | start sound =>
      refine ⟨sound, ?_, ?_⟩
      · rintro r height ⟨member, _⟩
        cases member
      · rintro r height ⟨member, _⟩
        cases member
  | @pgdirInit s s' dirs pgdir built done ih =>
      apply ih.1.keeps done fun pgdir => trees (pgdir :: dirs)
      simp only [trees_cons]
      apply pgdirInit_keeps ih.2 (more _) (fun _ => panics _)
      intro pgdir usable new _ keeps
      exact keeps
  | @uvmInit s s' dirs pgdir binary built member done ih =>
      apply ih.1.keeps done fun _ => trees dirs
      exact uvmInit_keeps panics ih.2 (more _) ⟨member, rfl⟩ fun _ keeps => keeps
  | @uvmAlloc s s' dirs pgdir oldsz newsz sz built member done ih =>
      apply ih.1.keeps done fun _ => trees dirs
      exact uvmAlloc_keeps panics ih.2 (more _) ⟨member, rfl⟩ fun _ _ keeps => keeps
  | @uvmDealloc s s' dirs pgdir oldsz newsz sz built member done ih =>
      apply ih.1.keeps done fun _ => trees dirs
      exact uvmDealloc_keeps (Or.inr (panics _)) ih.2 (more _) ⟨member, rfl⟩
        fun _ keeps => keeps
  | @copyuvm s s' dirs pgdir sz copied built member done ih =>
      apply ih.1.keeps done fun copied => trees (copied.toList ++ dirs)
      apply copyuvm_keeps panics ih.2 (more _) ⟨member, rfl⟩
      · exact fun _ keeps => keeps
      · intro newPgdir h' _ keeps
        rw [← trees_cons] at keeps
        exact keeps

/-! ## What `vm_free` returns -/

/-- The pages of an address space: its tables and what they map. -/
def InTree (s : Machine Pid) (pgdir x : Nat) : Prop :=
  ∃ path : List Nat, path.length ≤ 4 ∧ (links s.mem).follow pgdir path = some x

/-- `vm_free(pgdir, 1)` returns exactly the pages of the tree, each once. -/
def ReturnsTree (kernelEnd : Nat) (p : Pid) (s : Machine Pid) (pgdir : Nat) : Prop :=
  ∃ s' pages, machine.Completes p (vmFree kernelEnd pgdir 1) s () s' ∧
    pages.Nodup ∧ (∀ x, x ∈ pages ↔ InTree s pgdir x) ∧
    s'.freeList.Perm (pages ++ s.freeList)

omit [DecidableEq Pid] in
/-- The trees of a process are found in memory. -/
theorem Machine.follow_view (keeps : (s.view kernelEnd p).Keeps roots) {r height : Nat}
    (root : (r, height) ∈ roots) (short : path.length ≤ height) :
    (links s.mem).follow r path = (s.view kernelEnd p).links.follow r path := by
  refine Links.follow_congr ?_ short
  intro before y shorter found
  rcases Heap.mem_owned.mp (Forest.mem keeps r height root before y shorter.le found) with
    ⟨page, here⟩
  rw [Heap.links_of_page here, ← (view_page_eq_some here).2.2]
  rfl

/-- What `vm_free(pgdir, 1)` frees: the root, the tables of level 1 and those of level 3. -/
theorem vmFree_completes (sound : s.Sound kernelEnd)
    (keeps : (s.view kernelEnd p).Keeps (trees dirs)) (member : pgdir ∈ dirs) :
    ∃ s', machine.Completes p (vmFree kernelEnd pgdir 1) s () s' ∧ s'.Sound kernelEnd ∧
      (s'.view kernelEnd p).Lacks (s.view kernelEnd p)
        ((s.view kernelEnd p).reach (freed 2) pgdir) := by
  let others := trees dirs \ {(pgdir, 4)}
  have split : trees dirs = insert (pgdir, 4) others := by
    rw [Set.insert_sdiff_singleton, Set.insert_eq_of_mem]
    exact ⟨member, rfl⟩
  have outside : ∀ height, (pgdir, height) ∉ others := by
    rintro height ⟨⟨_, rfl⟩, other⟩
    exact other rfl
  rw [split] at keeps
  have more : (aloneRules kernelEnd p fun _ => False).live ⊆ others := Set.empty_subset _
  rcases sound.completes (vmFree_frees keeps outside more) with ⟨_, s', done, sound', lacks⟩
  exact ⟨s', done, sound', lacks⟩

omit [DecidableEq Pid] in
/-- The pages that are gone are on the free list. -/
theorem Machine.Sound.mem_freeList (sound' : s'.Sound kernelEnd) {gone : Set Nat}
    (lacks : (s'.view kernelEnd p).Lacks (s.view kernelEnd p) gone) (sound : s.Sound kernelEnd)
    (owned : gone ⊆ (s.view kernelEnd p).owned) :
    x ∈ s'.freeList ↔ x ∈ gone ∨ x ∈ s.freeList := by
  rw [mem_freeList_iff p sound', mem_freeList_iff p sound]
  by_cases member : x ∈ gone
  · have usable := (s.view kernelEnd p).usable x (owned member)
    simp [member, usable, lacks.missing x member]
  · simp [member, lacks.other member]

theorem vmFree_returnsTree (sound : s.Sound kernelEnd)
    (keeps : (s.view kernelEnd p).Keeps (trees dirs)) (member : pgdir ∈ dirs) :
    ReturnsTree kernelEnd p s pgdir ↔
      ∀ path : List Nat, path.length = 2 → (links s.mem).follow pgdir path = none := by
  have root : (pgdir, 4) ∈ trees dirs := ⟨member, rfl⟩
  have short : ∀ n, freed 2 n → n ≤ 4 := by
    rintro n (low | rfl) <;> omega
  have same : ∀ path : List Nat, path.length ≤ 4 →
      (links s.mem).follow pgdir path = (s.view kernelEnd p).links.follow pgdir path :=
    fun path => Machine.follow_view keeps root
  have owned : (s.view kernelEnd p).reach (freed 2) pgdir ⊆ (s.view kernelEnd p).owned := by
    rintro x ⟨path, length, found⟩
    exact Forest.mem keeps pgdir 4 root path x (short _ length) found
  have taken : ∀ x, x ∈ (s.view kernelEnd p).owned → x ∉ s.freeList := by
    intro x here
    rcases Heap.mem_owned.mp here with ⟨page, here⟩
    exact (Machine.view_page_eq_some here).2.1
  rcases vmFree_completes (p := p) sound keeps member with ⟨s', done, sound', lacks⟩
  have now : ∀ x, x ∈ s'.freeList ↔
      x ∈ (s.view kernelEnd p).reach (freed 2) pgdir ∨ x ∈ s.freeList :=
    fun x => sound'.mem_freeList lacks sound owned
  constructor
  · rintro ⟨s'', pages, done', _, exactly, list⟩ path two
    rcases System.Completes.unique done done' with ⟨_, rfl⟩
    cases found : (links s.mem).follow pgdir path with
    | none => rfl
    | some x =>
        have inTree : x ∈ pages := (exactly x).mpr ⟨path, by omega, found⟩
        have free : x ∈ s''.freeList := list.mem_iff.mpr (List.mem_append_left _ inTree)
        rw [same path (by omega)] at found
        have here := Forest.mem keeps pgdir 4 root path x (by omega) found
        rcases (now x).mp free with ⟨path', length, found'⟩ | old
        · have equal := Forest.once keeps pgdir 4 root pgdir 4 root path' path x
            (short _ length) (by omega) found' found
          rw [equal.2.2, two] at length
          rcases length with low | high <;> omega
        · exact absurd old (taken x here)
  · intro noTable
    have everything : ∀ x, x ∈ (s.view kernelEnd p).reach (freed 2) pgdir ↔
        InTree s pgdir x := by
      intro x
      constructor
      · rintro ⟨path, length, found⟩
        exact ⟨path, short _ length, (same path (short _ length)).trans found⟩
      · rintro ⟨path, bound, found⟩
        have shorter : path.length < 2 := by
          by_contra longer
          have split := List.take_append_drop 2 path
          rw [← split] at found
          rcases Links.follow_prefix found with ⟨y, reached, _⟩
          rw [noTable _ (by rw [List.length_take]; omega)] at reached
          cases reached
        exact ⟨path, Or.inl shorter, (same path bound).symm.trans found⟩
    refine ⟨s', s'.freeList.filter (· ∉ s.freeList), done, sound'.nodup.filter _, ?_, ?_⟩
    · intro x
      rw [List.mem_filter, now, ← everything]
      simp only [decide_eq_true_eq]
      constructor
      · rintro ⟨reached | old, new⟩
        · exact reached
        · exact absurd old new
      · intro reached
        exact ⟨Or.inl reached, taken x (owned reached)⟩
    · have nodup : (s'.freeList.filter (· ∉ s.freeList) ++ s.freeList).Nodup := by
        apply (sound'.nodup.filter _).append sound.nodup
        intro x new old
        have absent := (List.mem_filter.mp new).2
        simp only [decide_eq_true_eq] at absent
        exact absent old
      rw [List.perm_ext_iff_of_nodup sound'.nodup nodup]
      intro x
      rw [List.mem_append, List.mem_filter, now]
      simp only [decide_eq_true_eq]
      constructor
      · intro free
        by_cases old : x ∈ s.freeList
        · exact Or.inr old
        · exact Or.inl ⟨free, old⟩
      · rintro (⟨free, _⟩ | old)
        · exact free
        · exact Or.inr old

/--
The call returns the pages of the address space, each once, exactly where the
address space has no table of level 2.
-/
theorem vmFree_returnsTree_iff (built : Built kernelEnd p s dirs) (member : pgdir ∈ dirs) :
    ReturnsTree kernelEnd p s pgdir ↔
      ∀ path : List Nat, path.length = 2 → (links s.mem).follow pgdir path = none :=
  vmFree_returnsTree built.keeps.1 built.keeps.2 member

/-! ## A process with one page -/

/-- Eight free pages behind a kernel of one page. -/
def eightFree : Machine Unit where
  mem _ := filled 0
  freeList := [1, 2, 3, 4, 5, 6, 7, 8]
  proc _ :=
    { state := .UNUSED, sz := 0, pgdir := 0, kstack := 0, parent := none,
      tf := { r0 := 0, r1 := 0, sp := 0, elr := 0 } }
  lock := none

/-- An empty address space. -/
def emptySpace : Nat × Machine Unit :=
  (machine.run () pgdirInit eightFree).get (by decide)

theorem emptySpace_links (i : Nat) : links emptySpace.2.mem emptySpace.1 i = none := by
  have page : emptySpace.2.mem emptySpace.1 = filled 0 := rfl
  rw [links, page, children_filled]

/-- The address space after one page has been allocated. -/
def onePage : Nat × Machine Unit :=
  (machine.run () (uvmAlloc 1 emptySpace.1 0 PGSIZE) emptySpace.2).get (by decide)

theorem onePage_built : Built 1 () onePage.2 [emptySpace.1] := by
  have sound : eightFree.Sound 1 := ⟨by decide, by decide⟩
  have first : machine.run () pgdirInit eightFree = some emptySpace :=
    (Option.some_get _).symm
  have second : machine.run () (uvmAlloc 1 emptySpace.1 0 PGSIZE) emptySpace.2 =
      some onePage :=
    (Option.some_get _).symm
  exact .uvmAlloc (.pgdirInit (.start sound) (System.run_completes first))
    (List.mem_singleton_self _) (System.run_completes second)

theorem vmFree_returnsTree_iff_onePage :
    ReturnsTree 1 () onePage.2 emptySpace.1 ↔
      ∀ path : List Nat, path.length = 2 →
        (links onePage.2.mem).follow emptySpace.1 path = none :=
  vmFree_returnsTree_iff onePage_built (List.mem_singleton_self _)

/-- The table of level 2 and the page of the process are lost. -/
theorem not_vmFree_returnsTree_onePage :
    Built 1 () onePage.2 [emptySpace.1] ∧ ¬ ReturnsTree 1 () onePage.2 emptySpace.1 := by
  refine ⟨onePage_built, ?_⟩
  rw [vmFree_returnsTree onePage_built.keeps.1 onePage_built.keeps.2
    (List.mem_singleton_self _)]
  intro noTable
  have found : (links onePage.2.mem).follow emptySpace.1 [0, 0] = some 4 := by
    decide
  rw [noTable [0, 0] rfl] at found
  cases found

end PiKernel.Vm
