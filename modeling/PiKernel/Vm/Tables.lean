import PiKernel.Vm.Rules

/-!
# Walking, mapping and freeing page tables

What `pgdir_walk`, `map_region`, `pgdir_init` and `vm_free` do to the trees of a
process.  A tree with root `pgdir` has height four: the tables of the levels 0 to
3 and the pages which the last ones map.
-/

namespace PiKernel.Vm

open PiKernel.Conc
open PiKernel.Conc.Prog (perform)

theorem PTX_lt (level va : Nat) : PTX level va < ENTRYSZ :=
  Nat.mod_lt _ (by simp [ENTRYSZ])

theorem Usable.entry_lt {kernelEnd x flags : Nat} (usable : Usable kernelEnd x)
    (low : flags < PGSIZE) : entry x flags < 2 ^ 64 := by
  have bound : PHYSTOP + PGSIZE ≤ 2 ^ 64 := by decide
  exact lt_of_lt_of_le (Nat.add_lt_add usable.2 low) bound

/-- The flags of an entry that leads to a table. -/
theorem target_table (y : Nat) : target (entry y (PTE_P ||| PTE_TABLE)) = some y :=
  target_entry (by decide) (by decide)

/-- The flags with which `map_region` enters a page. -/
def pageFlags (perm : Nat) : Nat :=
  perm ||| PTE_P ||| PTE_TABLE ||| PTE_AF ||| PTE_NORMAL

theorem pageFlags_lt {perm : Nat} (low : perm < PGSIZE) : pageFlags perm < PGSIZE := by
  have width : PGSIZE = 2 ^ 12 := rfl
  rw [width] at low ⊢
  unfold pageFlags
  repeat' apply Nat.or_lt_two_pow
  · exact low
  all_goals decide

theorem target_page {perm : Nat} (y : Nat) (low : perm < PGSIZE) :
    target (entry y (pageFlags perm)) = some y := by
  apply target_entry (pageFlags_lt low)
  simp [pageFlags, PTE_P]

variable {kernelEnd : Nat} {Pid : Type} {R : Rules kernelEnd Pid}
  {h : Heap kernelEnd} {roots : Set (Nat × Nat)}
  {x y t i k level levels r height root pgdir va perm : Nat} {alloc : Bool}
  {page : Page} {path : List Nat}

theorem children_eq_some (linked : children page i = some y) :
    present (word page i) = true ∧ pageOf (word page i) = y := by
  rw [children, target] at linked
  split at linked
  · exact ⟨‹_›, Option.some.inj linked⟩
  · cases linked

theorem children_eq_none (absent : children page i = none) :
    present (word page i) = false := by
  rw [children, target] at absent
  split at absent
  · cases absent
  · exact Bool.eq_false_iff.mpr ‹_›

/-! ## `pgdir_walk` -/

section Walk

variable {post : Option (Nat × Nat) → Heap kernelEnd → Prop}

theorem pgdirWalkLoop_hit (here : h.page x = some page)
    (next : children page (PTX level va) = some y)
    (later : R.wp (pgdirWalkLoop va alloc levels (level + 1) y) h post) :
    R.wp (pgdirWalkLoop va alloc (levels + 1) level x) h post := by
  rcases children_eq_some next with ⟨here', leads⟩
  apply R.bind
  apply R.word here
  rw [if_pos here', leads]
  exact later

theorem pgdirWalkLoop_miss (here : h.page x = some page)
    (absent : children page (PTX level va) = none) (none : post none h) :
    R.wp (pgdirWalkLoop va false (levels + 1) level x) h post := by
  apply R.bind
  apply R.word here
  rw [if_neg (by simp [children_eq_none absent])]
  exact R.ret none

/-- The heap after a new table has been hung into an entry. -/
def Heap.hang (h : Heap kernelEnd) (x i y : Nat) (page : Page)
    (usable : Usable kernelEnd x) (usable' : Usable kernelEnd y) : Heap kernelEnd :=
  (h.take y (filled 0) usable').put x
    (setWord page i (entry y (PTE_P ||| PTE_TABLE))) usable

theorem Heap.Keeps.hang (keeps : h.Keeps roots)
    (usable : Usable kernelEnd x) (usable' : Usable kernelEnd y) (root : (r, height) ∈ roots)
    (found : h.links.follow r path = some x) (depth : path.length + 1 + k = height)
    (here : h.page x = some page) (new : h.page y = none) (inside : i < ENTRYSZ) :
    (h.hang x i y page usable usable').Keeps roots := by
  have other : x ≠ y := by
    rintro rfl
    rw [here] at new
    cases new
  have taken : (h.take y (filled 0) usable').Keeps (insert (y, k) roots) :=
    (keeps.take new).grow (keeps.not_root new) Heap.take_page_same k
  have found' : (h.take y (filled 0) usable').links.follow r path = some x :=
    (keeps.follow_take root new (by omega)).trans found
  refine taken.link (keeps.not_root new) root found' depth ?_ inside ?_ (target_table y)
  · rw [Heap.take_page_other other, here]
  · exact usable'.entry_lt (by decide)

theorem Heap.Keeps.follow_hang (keeps : h.Keeps roots)
    (usable : Usable kernelEnd x) (usable' : Usable kernelEnd y) (root : (r, height) ∈ roots)
    (found : h.links.follow r path = some x) (short : path.length ≤ height)
    (new : h.page y = none) (inside : i < ENTRYSZ) :
    (h.hang x i y page usable usable').links.follow r (path ++ [i]) = some y := by
  have found' : (h.take y (filled 0) usable').links.follow r path = some x :=
    (keeps.follow_take root new short).trans found
  have taken : (h.take y (filled 0) usable').Keeps roots :=
    (keeps.take new).mono (Set.subset_insert _ _)
  have reached : (h.hang x i y page usable usable').links.follow r path = some x :=
    taken.follow_put root short found'
  rw [Links.follow_snoc reached, Heap.hang, Heap.links_of_page Heap.put_page_same,
    children_setWord inside (usable'.entry_lt (by decide)), Function.update_self,
    target_table]

/-- The ways after a table has been hung into an entry: the old ones, and the one to it. -/
theorem Heap.Keeps.follow_hang_iff {z : Nat} {path' : List Nat} (keeps : h.Keeps roots)
    (tree : (pgdir, height) ∈ roots) {usable : Usable kernelEnd x} {usable' : Usable kernelEnd y}
    (found : h.links.follow pgdir path = some x) (short : path.length < height)
    (here : h.page x = some page) (absent : children page i = none) (new : h.page y = none)
    (inside : i < ENTRYSZ) (bound : path'.length ≤ height) :
    (h.hang x i y page usable usable').links.follow pgdir path' = some z ↔
      h.links.follow pgdir path' = some z ∨ path' = path ++ [i] ∧ z = y := by
  let taken := h.take y (filled 0) usable'
  have other : x ≠ y := by
    rintro rfl
    rw [here] at new
    cases new
  have old : ∀ path' : List Nat, path'.length ≤ height →
      taken.links.follow pgdir path' = h.links.follow pgdir path' :=
    fun path' bound => keeps.follow_take tree new bound
  have links : (h.hang x i y page usable usable').links = taken.links.set x i (some y) := by
    have here' : taken.page x = some page := (Heap.take_page_other other).trans here
    rw [Heap.hang, Heap.links_put_setWord here' inside (usable'.entry_lt (by decide)),
      target_table]
  constructor
  · intro reached
    rw [links] at reached
    rcases Links.follow_set reached with before | ⟨before, after, split, hit, tail⟩
    · left
      rwa [old path' bound] at before
    · right
      have length : before.length ≤ height := by
        rw [split, List.length_append, List.length_cons] at bound
        omega
      rw [old before length] at hit
      have equal := Forest.once keeps pgdir height tree pgdir height tree before path x (by omega)
        (by omega) hit found
      cases after with
      | nil => exact ⟨by rw [split, equal.2.2], (Option.some.inj tail).symm⟩
      | cons j after =>
          rw [Links.follow_cons, Links.set_other (fun same => other same.1.symm),
            Heap.links_of_page Heap.take_page_same, children_filled] at tail
          cases tail
  · rintro (reached | ⟨rfl, rfl⟩)
    · rw [← old path' bound] at reached
      rw [links]
      refine Links.follow_mono ?_ reached
      intro x' j z linked
      rw [Links.set_other]
      · exact linked
      · rintro ⟨rfl, rfl⟩
        rw [Heap.links_take_other other, Heap.links_of_page here, absent] at linked
        cases linked
    · exact keeps.follow_hang usable usable' tree found (by omega) new inside

/-- A table is missing and `pgdir_walk` may create it. -/
theorem pgdirWalkLoop_grow (keeps : h.Keeps roots) (more : R.live ⊆ roots)
    (root : (r, height) ∈ roots) (found : h.links.follow r path = some x)
    (depth : path.length + 1 + k = height) (here : h.page x = some page)
    (absent : children page (PTX level va) = none)
    (fail : h.supply = none ∨ h.supply = some 0 → post none h)
    (later : ∀ y usable, h.page y = none → h.supply ≠ some 0 →
      (h.hang x (PTX level va) y page (Heap.usable_of_page here) usable).Keeps roots →
      R.wp (pgdirWalkLoop va true levels (level + 1) y)
        (h.hang x (PTX level va) y page (Heap.usable_of_page here) usable) post) :
    R.wp (pgdirWalkLoop va true (levels + 1) level x) h post := by
  apply R.bind
  apply R.word here
  rw [if_neg (by simp [children_eq_none absent])]
  apply R.bind
  apply Rules.kalloc (keeps.mono more)
  · intro empty
    exact R.ret (fail empty)
  · intro y usable new supply
    have other : x ≠ y := by
      rintro rfl
      rw [here] at new
      cases new
    have hung := keeps.hang (Heap.usable_of_page here) usable root found depth here new
      (PTX_lt level va)
    apply R.bind
    apply R.fill Heap.take_page_same
    · rw [Heap.take_put]
      exact (keeps.take new).mono (more.trans (Set.subset_insert _ _))
    · rw [Heap.take_put]
      apply R.bind
      apply R.setWord ((Heap.take_page_other other).trans here)
      · exact hung.mono more
      · exact later y usable new supply hung

/-- The indices of a virtual address in the tables from a level on. -/
def walkPath (va : Nat) : Nat → Nat → List Nat
  | 0, _ => []
  | levels + 1, level => PTX level va :: walkPath va levels (level + 1)

theorem walkPath_length : (walkPath va levels level).length = levels := by
  induction levels generalizing level with
  | zero => rfl
  | succ levels ih => rw [walkPath, List.length_cons, ih]

/-- Without creating tables the walk finds the last table, if there is one. -/
theorem pgdirWalkLoop_find (keeps : h.Keeps roots) (tree : (r, height) ∈ roots)
    (found : h.links.follow r path = some x) (depth : path.length + levels ≤ height)
    (next : post ((h.links.follow x (walkPath va levels level)).map
      fun t => (t, PTX (level + levels) va)) h) :
    R.wp (pgdirWalkLoop va false levels level x) h post := by
  induction levels generalizing x level path with
  | zero => exact R.ret next
  | succ levels ih =>
      rcases Heap.mem_owned.mp (Forest.mem keeps r height tree path x (by omega) found) with
        ⟨page, here⟩
      rw [walkPath, Links.follow_cons, Heap.links_of_page here] at next
      cases linked : children page (PTX level va) with
      | none =>
          rw [linked] at next
          exact pgdirWalkLoop_miss here linked next
      | some y =>
          rw [linked, Option.bind_some] at next
          apply pgdirWalkLoop_hit here linked
          have found' : h.links.follow r (path ++ [PTX level va]) = some y := by
            rw [Links.follow_snoc found, Heap.links_of_page here, linked]
          apply ih found'
          · rw [List.length_append, List.length_singleton]
            omega
          · rwa [Nat.succ_add_eq_add_succ]

theorem pgdirWalk_find (keeps : h.Keeps roots) (tree : (pgdir, 4) ∈ roots)
    (next : post ((h.links.follow pgdir (walkPath va 3 0)).map fun t => (t, PTX 3 va)) h) :
    R.wp (pgdirWalk pgdir va false) h post := by
  have found : h.links.follow pgdir [] = some pgdir := rfl
  exact pgdirWalkLoop_find keeps tree found (by simp) next

/-- Creating tables keeps all trees. -/
theorem pgdirWalkLoop_alloc (keeps : h.Keeps roots) (more : R.live ⊆ roots)
    (tree : (r, 4) ∈ roots) (found : h.links.follow r path = some x)
    (depth : path.length + levels = 3)
    (fail : ∀ h', h'.Keeps roots → post none h')
    (done : ∀ h' t path, h'.Keeps roots → path.length = 3 →
      h'.links.follow r path = some t → post (some (t, PTX (level + levels) va)) h') :
    R.wp (pgdirWalkLoop va true levels level x) h post := by
  induction levels generalizing h x level path with
  | zero => exact R.ret (done h x path keeps depth found)
  | succ levels ih =>
      rcases Heap.mem_owned.mp (Forest.mem keeps r 4 tree path x (by omega) found) with
        ⟨page, here⟩
      have deeper : (path ++ [PTX level va]).length + levels = 3 := by
        rw [List.length_append, List.length_singleton]
        omega
      cases linked : children page (PTX level va) with
      | some y =>
          apply pgdirWalkLoop_hit here linked
          have found' : h.links.follow r (path ++ [PTX level va]) = some y := by
            rw [Links.follow_snoc found, Heap.links_of_page here, linked]
          apply ih keeps found' deeper
          rwa [Nat.succ_add_eq_add_succ]
      | none =>
          apply pgdirWalkLoop_grow keeps more tree found
            (by omega : path.length + 1 + (levels + 1) = 4) here linked
          · intro _
            exact fail h keeps
          · intro y usable new _ hung
            apply ih hung
            · exact keeps.follow_hang _ usable tree found (by omega) new (PTX_lt _ _)
            · exact deeper
            · rwa [Nat.succ_add_eq_add_succ]

theorem pgdirWalk_alloc (keeps : h.Keeps roots) (more : R.live ⊆ roots)
    (tree : (pgdir, 4) ∈ roots) (fail : ∀ h', h'.Keeps roots → post none h')
    (done : ∀ h' t path, h'.Keeps roots → path.length = 3 →
      h'.links.follow pgdir path = some t → post (some (t, PTX 3 va)) h') :
    R.wp (pgdirWalk pgdir va true) h post := by
  have found : h.links.follow pgdir [] = some pgdir := rfl
  exact pgdirWalkLoop_alloc keeps more tree found rfl fail done

end Walk

/-! ## `map_region` and `pgdir_init` -/

/-- A page is mapped with one entry. -/
theorem mapRegion_eq (aligned : va % PGSIZE = 0) :
    (mapRegion pgdir va PGSIZE x perm : Prog (Act Pid) Bool) =
      mapRegionLoop pgdir perm 1 va x := by
  have first : ROUNDDOWN va PGSIZE = va := by rw [ROUNDDOWN, aligned, Nat.sub_zero]
  have last : ROUNDDOWN (va + PGSIZE - 1) PGSIZE = va := by
    simp only [ROUNDDOWN, PGSIZE] at aligned ⊢
    omega
  simp only [mapRegion, first, last, Nat.sub_self, Nat.zero_div, Nat.zero_add]

/-- The page in hand is mapped, or it stays in hand. -/
theorem mapRegion_keeps {post : Bool → Heap kernelEnd → Prop}
    (keeps : h.Keeps (insert (x, 0) roots)) (outside : (x, 0) ∉ roots)
    (more : R.live ⊆ roots) (tree : (pgdir, 4) ∈ roots) (aligned : va % PGSIZE = 0)
    (low : perm < PGSIZE) (remap : R.mayPanic "remap")
    (fail : ∀ h', h'.Keeps (insert (x, 0) roots) → post false h')
    (done : ∀ h' path, h'.Keeps roots → path.length = 4 →
      h'.links.follow pgdir path = some x → post true h') :
    R.wp (mapRegion pgdir va PGSIZE x perm) h post := by
  rw [mapRegion_eq aligned]
  apply R.bind
  apply pgdirWalk_alloc keeps (more.trans (Set.subset_insert _ _)) (Or.inr tree)
  · intro h' keeps'
    exact R.ret (fail h' keeps')
  · intro h' t path keeps' three found
    rcases Heap.mem_owned.mp
      (Forest.mem keeps' pgdir 4 (Or.inr tree) path t (by omega) found) with ⟨page, here⟩
    have inHand : x ∈ h'.owned := Forest.root_mem keeps' (Or.inl rfl)
    have fits : entry x (pageFlags perm) < 2 ^ 64 :=
      (h'.usable x inHand).entry_lt (pageFlags_lt low)
    let mapped := h'.put t (Vm.setWord page (PTX 3 va) (entry x (pageFlags perm)))
      (Heap.usable_of_page here)
    apply R.bind
    apply R.word here
    split
    · exact R.panic remap
    · have ordered : mapped.Keeps roots :=
        keeps'.link outside tree found (by omega) here (PTX_lt 3 va) fits (target_page x low)
      have reached : mapped.links.follow pgdir path = some t :=
        keeps'.follow_put (Or.inr tree) (by omega) found
      apply R.bind
      apply R.setWord here
      · exact ordered.mono more
      · apply R.ret
        apply done _ (path ++ [PTX 3 va]) ordered
        · rw [List.length_append, three, List.length_singleton]
        · rw [Links.follow_snoc reached, Heap.links_of_page Heap.put_page_same,
            children_setWord (PTX_lt 3 va) fits, Function.update_self, target_page x low]

theorem pgdirInit_keeps {post : Nat → Heap kernelEnd → Prop} (keeps : h.Keeps roots)
    (more : R.live ⊆ roots)
    (full : h.supply = none ∨ h.supply = some 0 → R.mayPanic "pgdir_init: kalloc failed\n")
    (next : ∀ pgdir usable, h.page pgdir = none → h.supply ≠ some 0 →
      (h.take pgdir (filled 0) usable).Keeps (insert (pgdir, 4) roots) →
      post pgdir (h.take pgdir (filled 0) usable)) :
    R.wp pgdirInit h post := by
  apply R.bind
  apply Rules.kalloc (keeps.mono more)
  · intro empty
    exact R.panic (full empty)
  · intro pgdir usable new supply
    apply R.bind
    apply R.fill Heap.take_page_same
    · rw [Heap.take_put]
      exact (keeps.take new).mono (more.trans (Set.subset_insert _ _))
    · rw [Heap.take_put]
      apply R.ret
      apply next pgdir usable new supply
      exact (keeps.take new).grow (keeps.not_root new) Heap.take_page_same 4

/-! ## `vm_free` -/

theorem readLE_outside {off width : Nat} (page : Page) (outside : PGSIZE ≤ off) :
    Bytes.readLE page off width = 0 := by
  induction width generalizing off with
  | zero => rfl
  | succ width ih =>
      rw [Bytes.readLE, ih (by omega), Bytes.byteAt, dif_neg (by omega)]
      rfl

/-- A table has no entries but its first `ENTRYSZ`. -/
theorem inside_of_children (linked : children page i = some y) : i < ENTRYSZ := by
  by_contra outside
  have zero : word page i = 0 := by
    apply readLE_outside
    simp only [ENTRYSZ, PGSIZE] at outside ⊢
    omega
  rw [children, zero, target_zero] at linked
  cases linked

/-- The loop of `vm_free` over the entries of a table. -/
theorem vmFree_entries {free : Nat → Prog (Act Pid) Unit} {lengths : Nat → Prop}
    (short : ∀ n, lengths n → n ≤ k)
    (each : ∀ y h, h.Keeps (insert (y, k) roots) → (y, k) ∉ roots →
      R.wp (free y) h fun _ h' => h'.Lacks h (h.reach lengths y))
    (keeps : h.Keeps (insert (x, k + 1) roots)) (outside : (x, k + 1) ∉ roots) :
    R.wp
      ((List.range ENTRYSZ).forM fun i => do
        let pte ← perform (.word x i)
        if present pte then
          free (pageOf pte)) h
      fun _ h' => h'.Lacks h (h.reach (fun n => ∃ m, n = m + 1 ∧ lengths m) x) := by
  have root : (x, k + 1) ∈ insert (x, k + 1) roots := Or.inl rfl
  -- No tree but the one of the entry leads to what is below it.
  have apart : ∀ (entries : List Nat) r m, (r, m) ∈ insert (x, k + 1) roots →
      ∀ path : List Nat, path.length ≤ m →
        ((r, m) = (x, k + 1) → ∀ i ∈ entries, path.head? ≠ some i) → ∀ y,
          h.links.follow r path = some y → y ∉ h.below lengths x entries := by
    rintro entries r m tree path bound other y found
      ⟨i, member, target, linked, rest, length, found'⟩
    have through : h.links.follow x (i :: rest) = some y := by
      rw [Links.follow_cons, linked, Option.bind_some, found']
    have rest_short := short rest.length length
    have equal := Forest.once keeps r m tree x (k + 1) root path (i :: rest) y bound
      (by rw [List.length_cons]; omega) found through
    rw [equal.2.2] at other
    exact other (by rw [equal.1, equal.2.1]) i member rfl
  have start : h.Lacks h (h.below lengths x []) := by
    rw [Heap.below_nil]
    exact ⟨fun y none => none.elim, fun _ => rfl, rfl⟩
  have final : h.below lengths x (List.range ENTRYSZ) =
      h.reach (fun n => ∃ m, n = m + 1 ∧ lengths m) x := by
    apply Heap.below_eq_reach
    intro i y linked
    rcases Heap.links_eq_some linked with ⟨page, _, linked'⟩
    exact List.mem_range.mpr (inside_of_children linked')
  rw [← final]
  refine Rules.forM (fun before h' => h'.Lacks h (h.below lengths x before)) _ ?_ start
  intro before i after h' split lacks
  have fresh : i ∉ before := by
    have nodup := List.nodup_range (n := ENTRYSZ)
    rw [split, List.nodup_middle, List.nodup_cons] at nodup
    exact fun member => nodup.1 (List.mem_append_left _ member)
  have others : ∀ r m, (r, m) ∈ roots → ∀ path : List Nat, path.length ≤ m → ∀ y,
      h.links.follow r path = some y → y ∉ h.below lengths x before := by
    intro r m tree path bound y found
    apply apart before r m (Or.inr tree) path bound _ y found
    intro same
    rw [same] at tree
    exact absurd tree outside
  rcases Heap.mem_owned.mp (Forest.root_mem keeps root) with ⟨page, here⟩
  have here' : h'.page x = some page := by
    rw [lacks.other, here]
    exact apart before x (k + 1) root [] (by simp) (by simp) x rfl
  have linked : h.links x i = children page i := by rw [Heap.links_of_page here]
  apply R.bind
  apply R.word here'
  cases next : children page i with
  | none =>
      rw [if_neg (by simp [children_eq_none next]), Heap.below_snoc_none (linked.trans next)]
      exact R.ret lacks
  | some y =>
      rcases children_eq_some next with ⟨here, leads⟩
      rw [next] at linked
      have step : h.links.follow x [i] = some y := by
        rw [Links.follow_cons, linked, Option.bind_some, Links.follow_nil]
      have tree : h.Keeps (insert (y, k) roots) :=
        Forest.sub keeps outside step (by simp; omega)
      have inside : ∀ path : List Nat, path.length ≤ k → ∀ z,
          h.links.follow y path = some z → z ∉ h.below lengths x before := by
        intro path bound z found
        apply apart before x (k + 1) root (i :: path) (by simp; omega)
        · rintro _ j member same
          cases same
          exact fresh member
        · rw [Links.follow_cons, linked, Option.bind_some, found]
      have kept : h'.Keeps (insert (y, k) roots) := by
        apply tree.lacks lacks
        rintro r m (same | other) path bound z found
        · cases same
          exact inside path bound z found
        · exact others r m other path bound z found
      have single : (y, k) ∉ roots := by
        intro member
        have equal := Forest.once keeps y k (Or.inr member) x (k + 1) root [] [i] y (by simp)
          (by simp) rfl step
        cases equal.2.2
      have reach : h'.reach lengths y = h.reach lengths y := by
        ext z
        constructor
        · rintro ⟨path, length, found⟩
          rw [lacks.follow inside (short _ length)] at found
          exact ⟨path, length, found⟩
        · rintro ⟨path, length, found⟩
          rw [← lacks.follow inside (short _ length)] at found
          exact ⟨path, length, found⟩
      rw [if_pos here, leads, Heap.below_snoc linked]
      refine R.mono (each y h' kept single) ?_
      intro _ h'' lacks'
      rw [reach] at lacks'
      exact lacks.trans lacks'

/-- The pages that `vm_free` frees: the tables, but for the last level, and what they map. -/
def freed (below n : Nat) : Prop :=
  n < below ∨ n = below + 1

theorem vmFreeFrom_frees {below : Nat} (keeps : h.Keeps (insert (x, below + 1) roots))
    (outside : (x, below + 1) ∉ roots) (more : R.live ⊆ roots) :
    R.wp (vmFreeFrom kernelEnd below x) h
      fun _ h' => h'.Lacks h (h.reach (freed below) x) := by
  induction below generalizing h x with
  | zero =>
      have lengths : freed 0 = fun n => ∃ m, n = m + 1 ∧ m = 0 := by
        funext n
        simp [freed]
      rw [lengths, vmFreeFrom, vmFreeLeaves]
      refine vmFree_entries (by simp) ?_ keeps outside
      intro y h keeps outside
      apply Rules.kfree (Forest.root_mem keeps (Or.inl rfl))
      · exact (keeps.drop_root outside).mono more
      · rw [Heap.reach_zero]
        exact Heap.lacks_drop
  | succ below ih =>
      have root : (x, below + 2) ∈ insert (x, below + 2) roots := Or.inl rfl
      have short : ∀ n, freed below n → n ≤ below + 1 := by
        rintro n (low | rfl) <;> omega
      rw [vmFreeFrom]
      apply R.bind
      refine R.mono (vmFree_entries short ?_ keeps outside) ?_
      · intro y h keeps outside
        exact ih keeps outside
      · intro _ h' lacks
        have still : x ∉ h.reach (fun n => ∃ m, n = m + 1 ∧ freed below m) x := by
          rintro ⟨path, ⟨m, length, bound⟩, found⟩
          have equal := Forest.apart keeps root root
            (by have := short m bound; omega : path.length ≤ below + 2) found
          rw [equal.2.2] at length
          cases length
        have split : h.reach (freed (below + 1)) x =
            h.reach (fun n => ∃ m, n = m + 1 ∧ freed below m) x ∪ {x} := by
          rw [← Heap.reach_zero, ← Heap.reach_or]
          congr 1
          funext n
          cases n with
          | zero => simp [freed]
          | succ n => simp [freed]
        have all : (h'.drop x).Lacks h (h.reach (freed (below + 1)) x) := by
          rw [split]
          exact lacks.trans Heap.lacks_drop
        apply Rules.kfree
        · rcases Heap.mem_owned.mp (Forest.root_mem keeps root) with ⟨page, here⟩
          exact Heap.mem_owned.mpr ⟨page, (lacks.other still).trans here⟩
        · refine (keeps.lacks_reach outside ?_ all).mono more
          rintro n (low | rfl) <;> omega
        · exact all

/-- A tree with root `pgdir` is freed as one with a level less. -/
theorem vmFree_frees (keeps : h.Keeps (insert (pgdir, 4) roots))
    (outside : ∀ height, (pgdir, height) ∉ roots) (more : R.live ⊆ roots) :
    R.wp (vmFree kernelEnd pgdir 1) h
      fun _ h' => h'.Lacks h (h.reach (freed 2) pgdir) := by
  have shallow : h.Keeps (insert (pgdir, 2 + 1) roots) :=
    Forest.sub keeps (outside 4) Links.follow_nil (by simp)
  have level : 3 - 1 = 2 := rfl
  rw [vmFree, if_pos (by decide), level]
  exact vmFreeFrom_frees shallow (outside _) more

end PiKernel.Vm
