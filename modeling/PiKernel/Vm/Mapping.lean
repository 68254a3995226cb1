import PiKernel.Vm.Spaces

/-!
# Address spaces as maps

To a process an address space is a partial map from page numbers to pages.  `Retabled` says
that nothing but the tables of an address space has changed, and gives the new map;
the functions of `vm.c` are specified by what they do to the map.
-/

namespace PiKernel.Vm

open PiKernel.Conc
open PiKernel.Conc.Prog (perform)

variable {kernelEnd : Nat} {Pid : Type} {R : Rules kernelEnd Pid}
  {h h' h'' : Heap kernelEnd} {roots : Set (Nat × Nat)}
  {pgdir x y t i w n m va r height : Nat} {page : Page} {path path' : List Nat}

/-! ## Page numbers -/

/-- The way to the page with a number. -/
def leafPath (n : Nat) : List Nat :=
  walkPath (n * PGSIZE) 3 0 ++ [n % ENTRYSZ]

theorem leafPath_length : (leafPath n).length = 4 := by
  rw [leafPath, List.length_append, walkPath_length, List.length_singleton]

theorem walkPath_number : walkPath (va / PGSIZE * PGSIZE) 3 0 = walkPath va 3 0 := by
  simp only [walkPath, PTX, PGSIZE, ENTRYSZ, List.cons.injEq, and_true]
  omega

/-- Different pages of the 48-bit address space have different ways. -/
theorem leafPath_injective (low : n < 2 ^ 36) (low' : m < 2 ^ 36)
    (same : leafPath n = leafPath m) : n = m := by
  simp only [leafPath, walkPath, PTX, PGSIZE, ENTRYSZ, List.cons_append, List.nil_append,
    List.cons.injEq, and_true] at same
  omega

/-- Pages of one last table are found on one way. -/
theorem walkPath_block (same : n / ENTRYSZ = m / ENTRYSZ) :
    walkPath (n * PGSIZE) 3 0 = walkPath (m * PGSIZE) 3 0 := by
  simp only [ENTRYSZ] at same
  simp only [walkPath, PTX, PGSIZE, ENTRYSZ, List.cons.injEq, and_true]
  omega

/-! ## Changed tables -/

/--
Besides the tables of an address space only new pages are different; `leaf` is the page at
the end of every way through the tables.
-/
structure Retabled (h h' : Heap kernelEnd) (pgdir : Nat) (leaf : List Nat → Option Nat) :
    Prop where
  owned : ∀ x, x ∈ h.owned → x ∈ h'.owned
  tables : ∀ (path : List Nat) x, path.length ≤ 3 → h'.links.follow pgdir path = some x →
    h.links.follow pgdir path = some x ∨ x ∉ h.owned
  other : ∀ x, x ∈ h.owned →
    (∀ path : List Nat, path.length ≤ 3 → h.links.follow pgdir path ≠ some x) →
      h'.page x = h.page x
  leaves : ∀ path : List Nat, path.length = 4 → h'.links.follow pgdir path = leaf path

namespace Retabled

variable {leaf leaf' : List Nat → Option Nat}

theorem refl : Retabled h h pgdir (h.links.follow pgdir) where
  owned _ here := here
  tables _ _ _ found := Or.inl found
  other _ _ _ := rfl
  leaves _ _ := rfl

theorem congr (retabled : Retabled h h' pgdir leaf)
    (same : ∀ path : List Nat, path.length = 4 → leaf path = leaf' path) :
    Retabled h h' pgdir leaf' where
  owned := retabled.owned
  tables := retabled.tables
  other := retabled.other
  leaves path four := (retabled.leaves path four).trans (same path four)

theorem trans (first : Retabled h h' pgdir leaf) (second : Retabled h' h'' pgdir leaf') :
    Retabled h h'' pgdir leaf' where
  owned x here := second.owned x (first.owned x here)
  tables path x short found := by
    rcases second.tables path x short found with before | new
    · exact first.tables path x short before
    · exact Or.inr fun here => new (first.owned x here)
  other x here noTable := by
    rw [second.other x (first.owned x here), first.other x here noTable]
    intro path short found
    rcases first.tables path x short found with before | new
    · exact noTable path short before
    · exact new here
  leaves := second.leaves

/-- A page at the end of a way is as before. -/
theorem leaf_page (retabled : Retabled h h' pgdir leaf) (keeps : h.Keeps roots)
    (tree : (pgdir, 4) ∈ roots) (four : path.length = 4)
    (found : h.links.follow pgdir path = some y) : h'.page y = h.page y := by
  apply retabled.other y (Forest.mem keeps pgdir 4 tree path y four.le found)
  intro path' short found'
  have equal := Forest.once keeps pgdir 4 tree pgdir 4 tree path' path y (by omega) four.le
    found' found
  rw [equal.2.2] at short
  omega

/-- The other trees are as before. -/
theorem tree_page (retabled : Retabled h h' pgdir leaf) (keeps : h.Keeps roots)
    (tree : (pgdir, 4) ∈ roots) (tree' : (r, height) ∈ roots) (differs : r ≠ pgdir)
    (short : path.length ≤ height) (found : h.links.follow r path = some y) :
    h'.page y = h.page y := by
  apply retabled.other y (Forest.mem keeps r height tree' path y short found)
  intro path' short' found'
  have equal := Forest.once keeps r height tree' pgdir 4 tree path path' y short (by omega)
    found found'
  exact differs equal.1

/-- A page is taken from the free list. -/
theorem take {usable : Usable kernelEnd x} (keeps : h.Keeps roots) (tree : (pgdir, 4) ∈ roots)
    (new : h.page x = none) :
    Retabled h (h.take x page usable) pgdir (h.links.follow pgdir) where
  owned y here := by
    rw [Heap.owned_take]
    exact Or.inr here
  tables path y short found := by
    rw [keeps.follow_take tree new (by omega)] at found
    exact Or.inl found
  other y here _ := by
    apply Heap.take_page_other
    rintro rfl
    rcases Heap.mem_owned.mp here with ⟨page', owned⟩
    rw [new] at owned
    cases owned
  leaves path four := keeps.follow_take tree new four.le

end Retabled

theorem Retabled.hang (usable : Usable kernelEnd x) (usable' : Usable kernelEnd y)
    (keeps : h.Keeps roots) (tree : (pgdir, 4) ∈ roots)
    (found : h.links.follow pgdir path = some x) (short : path.length < 3)
    (here : h.page x = some page) (absent : children page i = none) (new : h.page y = none)
    (inside : i < ENTRYSZ) :
    Retabled h (h.hang x i y page usable usable') pgdir (h.links.follow pgdir) := by
  have ways : ∀ (path' : List Nat) z, path'.length ≤ 4 →
      ((h.hang x i y page usable usable').links.follow pgdir path' = some z ↔
        h.links.follow pgdir path' = some z ∨ path' = path ++ [i] ∧ z = y) :=
    fun path' z bound => keeps.follow_hang_iff tree found (by omega) here absent new inside bound
  have fresh : y ∉ h.owned := by
    intro owned
    rcases Heap.mem_owned.mp owned with ⟨page', there⟩
    rw [new] at there
    cases there
  have owned : x ∈ h.owned := Heap.mem_owned.mpr ⟨page, here⟩
  constructor
  · intro z old
    rw [Heap.hang, Heap.owned_put, Heap.owned_take]
    · exact Or.inr old
    · rw [Heap.owned_take]
      exact Or.inr owned
  · intro path' z bound reached
    rcases (ways path' z (by omega)).mp reached with before | ⟨_, rfl⟩
    · exact Or.inl before
    · exact Or.inr fresh
  · intro z old noTable
    have differs : z ≠ x := by
      rintro rfl
      exact noTable path (by omega) found
    have differs' : z ≠ y := by
      rintro rfl
      exact fresh old
    rw [Heap.hang, Heap.put_page_other differs, Heap.take_page_other differs']
  · intro path' four
    ext z
    rw [ways path' z four.le]
    constructor
    · rintro (before | ⟨rfl, _⟩)
      · exact before
      · rw [List.length_append, List.length_singleton] at four
        omega
    · exact Or.inl

/-- An entry of a last table is set. -/
theorem Retabled.setEntry (keeps : h.Keeps roots) (tree : (pgdir, 4) ∈ roots)
    {usable : Usable kernelEnd t} (found : h.links.follow pgdir path = some t)
    (three : path.length = 3) (here : h.page t = some page) (inside : i < ENTRYSZ)
    (fits : w < 2 ^ 64) :
    Retabled h (h.put t (setWord page i w) usable) pgdir
      (Function.update (h.links.follow pgdir) (path ++ [i]) (target w)) := by
  have same : ∀ path' : List Nat, path'.length ≤ 3 →
      (h.put t (setWord page i w) usable).links.follow pgdir path' =
        h.links.follow pgdir path' :=
    fun path' bound => keeps.follow_put_short tree (by omega) found (by omega)
  have owned : t ∈ h.owned := Heap.mem_owned.mpr ⟨page, here⟩
  constructor
  · intro z old
    rwa [Heap.owned_put owned]
  · intro path' z bound reached
    rw [same path' bound] at reached
    exact Or.inl reached
  · intro z old noTable
    apply Heap.put_page_other
    rintro rfl
    exact noTable path three.le found
  · intro path' four
    rcases List.eq_nil_or_concat path' with rfl | ⟨before, j, rfl⟩
    · cases four
    rw [List.length_concat] at four
    have three' : before.length = 3 := by omega
    rw [List.concat_eq_append]
    cases reached : h.links.follow pgdir before with
    | none =>
        have differs : before ++ [j] ≠ path ++ [i] := by
          intro equal
          rw [List.append_inj_left equal (by rw [three', three]), found] at reached
          cases reached
        rw [Function.update_of_ne differs, Links.follow_append, Links.follow_append,
          same before three'.le, reached]
        rfl
    | some t' =>
        have reached' := (same before three'.le).trans reached
        rw [Links.follow_snoc reached', Heap.links_put_setWord here inside fits]
        by_cases place : t' = t ∧ j = i
        · rcases place with ⟨rfl, rfl⟩
          have equal := Forest.once keeps pgdir 4 tree pgdir 4 tree before path t' (by omega)
            (by omega) reached found
          rw [Links.set_same, equal.2.2, Function.update_self]
        · have differs : before ++ [j] ≠ path ++ [i] := by
            intro equal
            have head := List.append_inj_left equal (by rw [three', three])
            rw [head, found] at reached
            rw [head] at equal
            exact place ⟨(Option.some.inj reached).symm,
              (List.cons.inj (List.append_cancel_left equal)).1⟩
          rw [Links.set_other place, Function.update_of_ne differs, Links.follow_snoc reached]

/-! ## `pgdir_walk` and `map_region` -/

section Walk

variable {post : Option (Nat × Nat) → Heap kernelEnd → Prop} {level levels : Nat}

/-- The walk that creates tables maps nothing. -/
theorem pgdirWalkLoop_retabled (keeps : h.Keeps roots) (more : R.live ⊆ roots)
    (tree : (pgdir, 4) ∈ roots) (found : h.links.follow pgdir path = some x)
    (depth : path.length + levels = 3)
    (fail : ∀ h', h'.Keeps roots → Retabled h h' pgdir (h.links.follow pgdir) → post none h')
    (done : ∀ h' t, h'.Keeps roots → Retabled h h' pgdir (h.links.follow pgdir) →
      h'.links.follow pgdir (path ++ walkPath va levels level) = some t →
      post (some (t, PTX (level + levels) va)) h') :
    R.wp (pgdirWalkLoop va true levels level x) h post := by
  induction levels generalizing h x level path with
  | zero =>
      apply R.ret
      apply done h x keeps .refl
      rw [walkPath, List.append_nil, found]
  | succ levels ih =>
      rcases Heap.mem_owned.mp (Forest.mem keeps pgdir 4 tree path x (by omega) found) with
        ⟨page, here⟩
      have deeper : (path ++ [PTX level va]).length + levels = 3 := by
        rw [List.length_append, List.length_singleton]
        omega
      have split : path ++ walkPath va (levels + 1) level =
          path ++ [PTX level va] ++ walkPath va levels (level + 1) := by
        rw [walkPath, List.append_assoc, List.singleton_append]
      rw [split] at done
      have last : level + (levels + 1) = level + 1 + levels := by omega
      rw [last] at done
      cases linked : children page (PTX level va) with
      | some y =>
          apply pgdirWalkLoop_hit here linked
          have found' : h.links.follow pgdir (path ++ [PTX level va]) = some y := by
            rw [Links.follow_snoc found, Heap.links_of_page here, linked]
          exact ih keeps found' deeper fail done
      | none =>
          apply pgdirWalkLoop_grow keeps more tree found
            (by omega : path.length + 1 + (levels + 1) = 4) here linked
          · intro _
            exact fail h keeps .refl
          · intro y usable new _ hung
            have step := Retabled.hang (Heap.usable_of_page here) usable keeps tree found
              (by omega) here linked new (PTX_lt level va)
            apply ih hung (keeps.follow_hang _ usable tree found (by omega) new (PTX_lt _ _)) deeper
            · intro h' keeps' later
              exact fail h' keeps' ((step.trans later).congr step.leaves)
            · intro h' t keeps' later
              exact done h' t keeps' ((step.trans later).congr step.leaves)

theorem pgdirWalk_retabled (keeps : h.Keeps roots) (more : R.live ⊆ roots)
    (tree : (pgdir, 4) ∈ roots)
    (fail : ∀ h', h'.Keeps roots → Retabled h h' pgdir (h.links.follow pgdir) → post none h')
    (done : ∀ h' t, h'.Keeps roots → Retabled h h' pgdir (h.links.follow pgdir) →
      h'.links.follow pgdir (walkPath va 3 0) = some t → post (some (t, PTX 3 va)) h') :
    R.wp (pgdirWalk pgdir va true) h post :=
  pgdirWalkLoop_retabled keeps more tree Links.follow_nil rfl fail done

end Walk

/-- The page in hand is mapped at `n`, or nothing is. -/
theorem mapRegion_map {post : Bool → Heap kernelEnd → Prop} {perm : Nat}
    (keeps : h.Keeps (insert (x, 0) roots)) (outside : (x, 0) ∉ roots) (more : R.live ⊆ roots)
    (tree : (pgdir, 4) ∈ roots) (low : perm < PGSIZE)
    (free : h.links.follow pgdir (leafPath n) = none)
    (fail : ∀ h', h'.Keeps (insert (x, 0) roots) →
      Retabled h h' pgdir (h.links.follow pgdir) → post false h')
    (done : ∀ h', h'.Keeps roots →
      Retabled h h' pgdir (Function.update (h.links.follow pgdir) (leafPath n) (some x)) →
      post true h') :
    R.wp (mapRegion pgdir (n * PGSIZE) PGSIZE x perm) h post := by
  have index : PTX 3 (n * PGSIZE) = n % ENTRYSZ := by
    change n * PGSIZE / PGSIZE % ENTRYSZ = n % ENTRYSZ
    rw [Nat.mul_div_cancel _ (by decide)]
  rw [mapRegion_eq (Nat.mul_mod_left _ _)]
  apply R.bind
  apply pgdirWalk_retabled keeps (more.trans (Set.subset_insert _ _)) (Or.inr tree)
  · intro h' keeps' retabled
    exact R.ret (fail h' keeps' retabled)
  · intro h' t keeps' retabled found
    rcases Heap.mem_owned.mp
      (Forest.mem keeps' pgdir 4 (Or.inr tree) _ t (by rw [walkPath_length]; omega) found) with
      ⟨page, here⟩
    have inHand : x ∈ h'.owned := Forest.root_mem keeps' (Or.inl rfl)
    have fits : entry x (pageFlags perm) < 2 ^ 64 :=
      (h'.usable x inHand).entry_lt (pageFlags_lt low)
    have inside : n % ENTRYSZ < ENTRYSZ := Nat.mod_lt _ (by decide)
    have absent : children page (n % ENTRYSZ) = none := by
      have none := retabled.leaves (leafPath n) leafPath_length
      rw [free, leafPath, Links.follow_snoc found, Heap.links_of_page here] at none
      exact none
    let mapped := h'.put t (Vm.setWord page (n % ENTRYSZ) (entry x (pageFlags perm)))
      (Heap.usable_of_page here)
    have ordered : mapped.Keeps roots :=
      keeps'.link outside tree found (by rw [walkPath_length]) here inside fits
        (target_page x low)
    have step : Retabled h' mapped pgdir
        (Function.update (h'.links.follow pgdir) (leafPath n) (some x)) := by
      rw [← target_page x low]
      exact .setEntry keeps' (Or.inr tree) found walkPath_length here inside fits
    rw [index]
    apply R.bind
    apply R.word here
    rw [if_neg (by simp [children_eq_none absent])]
    apply R.bind
    apply R.setWord here
    · exact ordered.mono more
    · apply R.ret
      apply done mapped ordered
      apply (retabled.trans step).congr
      intro path four
      by_cases same : path = leafPath n
      · subst same
        rw [Function.update_self, Function.update_self]
      · rw [Function.update_of_ne same, Function.update_of_ne same, retabled.leaves path four]

end PiKernel.Vm
