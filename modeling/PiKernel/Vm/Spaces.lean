import PiKernel.Vm.Tables

/-!
# Growing, shrinking and copying address spaces

`uvm_init`, `uvm_alloc`, `uvm_dealloc` and `copyuvm` keep all trees of a process:
every page they map is new, and a page is taken out of its tree when it is freed.
-/

namespace PiKernel.Vm

open PiKernel.Conc
open PiKernel.Conc.Prog (perform)

theorem ROUNDUP_aligned (a n : Nat) : ROUNDUP a n % n = 0 := by
  rw [ROUNDUP, ROUNDDOWN, ← Nat.div_mul_self_eq_mod_sub_self, Nat.mul_mod_left]

variable {kernelEnd : Nat} {Pid : Type} {R : Rules kernelEnd Pid}
  {h : Heap kernelEnd} {roots : Set (Nat × Nat)}
  {pgdir newPgdir oldsz newsz sz fuel a t i y : Nat} {page : Page} {path : List Nat}

/-! ## `uvm_dealloc` -/

/-- A mapped page is freed and its entry cleared. -/
theorem release_keeps {post : Unit → Heap kernelEnd → Prop} (keeps : h.Keeps roots)
    (more : R.live ⊆ roots) (tree : (pgdir, 4) ∈ roots) (three : path.length = 3)
    (found : h.links.follow pgdir path = some t) (here : h.page t = some page)
    (mapped : children page i = some y)
    (next : ∀ usable, (h.put t (setWord page i 0) usable).Keeps (insert (y, 0) roots) →
      ((h.put t (setWord page i 0) usable).drop y).Keeps roots →
      post () ((h.put t (setWord page i 0) usable).drop y)) :
    R.wp (do kfree kernelEnd y; perform (.setWord t i 0)) h post := by
  have reached : h.links.follow pgdir (path ++ [i]) = some y := by
    rw [Links.follow_snoc found, Heap.links_of_page here, mapped]
  have four : (path ++ [i]).length = 4 := by
    rw [List.length_append, three, List.length_singleton]
  have owned : y ∈ h.owned := Forest.mem keeps pgdir 4 tree _ y four.le reached
  have other : y ≠ t := by
    rintro rfl
    have equal := Forest.once keeps pgdir 4 tree pgdir 4 tree _ path y four.le (by omega)
      reached found
    rw [equal.2.2, three] at four
    cases four
  have outside : (y, 0) ∉ roots := by
    intro root
    have equal := Forest.apart keeps tree root four.le reached
    cases equal.2.1
  have inside := inside_of_children mapped
  let cleared := h.put t (setWord page i 0) (Heap.usable_of_page here)
  have cut : cleared.Keeps (insert (y, 0) roots) :=
    keeps.cut tree found here mapped (by omega) inside
  have dropped : (cleared.drop y).Keeps roots := cut.drop_root outside
  rw [Rules.kfree_eq owned]
  apply R.release here owned other inside
  · intro r height root path' short found'
    have equal := Forest.once keeps r height (more root) pgdir 4 tree path' path t short.le
      (by omega) found' found
    rw [equal.2.2, equal.2.1, three]
  · exact dropped.mono more
  · exact next _ cut dropped

theorem uvmDeallocLoop_keeps {post : Unit → Heap kernelEnd → Prop}
    (noZero : 0 < kernelEnd ∨ R.mayPanic "uvm_dealloc\n") (keeps : h.Keeps roots)
    (more : R.live ⊆ roots) (tree : (pgdir, 4) ∈ roots)
    (next : ∀ h', h'.Keeps roots → post () h') :
    R.wp (uvmDeallocLoop kernelEnd pgdir oldsz fuel a) h post := by
  induction fuel generalizing h a with
  | zero => exact R.ret (next h keeps)
  | succ fuel ih =>
      rw [uvmDeallocLoop]
      split
      · apply R.bind
        apply pgdirWalk_find keeps tree
        cases found : h.links.follow pgdir (walkPath a 3 0) with
        | none => exact ih keeps
        | some t =>
            have three : (walkPath a 3 0).length = 3 := walkPath_length
            rcases Heap.mem_owned.mp
              (Forest.mem keeps pgdir 4 tree _ t (by omega) found) with ⟨page, here⟩
            apply R.bind
            apply R.word here
            split
            · have mapped : children page (PTX 3 a) = some (pageOf (word page (PTX 3 a))) :=
                if_pos ‹_›
              split
              · rcases noZero with positive | allowed
                · have reached : h.links.follow pgdir (walkPath a 3 0 ++ [PTX 3 a]) = some 0 := by
                    rw [Links.follow_snoc found, Heap.links_of_page here, mapped]
                    exact congrArg some ‹_›
                  have owned := Forest.mem keeps pgdir 4 tree _ 0 (by simp [three]) reached
                  have low := (h.usable 0 owned).1
                  omega
                · exact R.panic allowed
              · rw [← Prog.bind_assoc]
                apply R.bind
                apply release_keeps keeps more tree three found here mapped
                intro _ _ keeps'
                exact ih keeps'
            · exact ih keeps
      · exact R.ret (next h keeps)

theorem uvmDealloc_keeps {post : Nat → Heap kernelEnd → Prop}
    (noZero : 0 < kernelEnd ∨ R.mayPanic "uvm_dealloc\n") (keeps : h.Keeps roots)
    (more : R.live ⊆ roots) (tree : (pgdir, 4) ∈ roots)
    (next : ∀ h', h'.Keeps roots → post (min oldsz newsz) h') :
    R.wp (uvmDealloc kernelEnd pgdir oldsz newsz) h post := by
  rw [uvmDealloc]
  by_cases larger : newsz ≥ oldsz
  · rw [if_pos larger]
    rw [Nat.min_eq_left larger] at next
    exact R.ret (next h keeps)
  · rw [if_neg larger]
    rw [Nat.min_eq_right (by omega)] at next
    apply R.bind
    apply uvmDeallocLoop_keeps noZero keeps more tree
    intro h' keeps'
    exact R.ret (next h' keeps')

/-! ## `uvm_alloc` and `uvm_init` -/

theorem uvmAllocLoop_keeps {post : Bool → Heap kernelEnd → Prop}
    (panics : ∀ message, R.mayPanic message) (keeps : h.Keeps roots) (more : R.live ⊆ roots)
    (tree : (pgdir, 4) ∈ roots) (aligned : a % PGSIZE = 0)
    (next : ∀ done h', h'.Keeps roots → post done h') :
    R.wp (uvmAllocLoop kernelEnd pgdir oldsz newsz fuel a) h post := by
  induction fuel generalizing h a with
  | zero => exact R.ret (next true h keeps)
  | succ fuel ih =>
      rw [uvmAllocLoop]
      split
      · apply R.bind
        apply Rules.kalloc (keeps.mono more)
        · intro _
          apply R.bind
          apply uvmDealloc_keeps (Or.inr (panics _)) keeps more tree
          intro h' keeps'
          exact R.ret (next false h' keeps')
        · intro mem usable new _
          have inHand : (h.take mem (filled 0) usable).Keeps (insert (mem, 0) roots) :=
            keeps.take new
          apply R.bind
          apply R.fill Heap.take_page_same
          · rw [Heap.take_put]
            exact inHand.mono (more.trans (Set.subset_insert _ _))
          · rw [Heap.take_put]
            apply R.bind
            apply mapRegion_keeps inHand (keeps.not_root new) more tree aligned (by decide)
              (panics _)
            · intro h' keeps'
              apply R.bind
              apply uvmDealloc_keeps (Or.inr (panics _)) keeps'
                (more.trans (Set.subset_insert _ _)) (Or.inr tree)
              intro h'' keeps''
              have dropped := keeps''.drop_root (keeps.not_root new)
              apply R.bind
              apply Rules.kfree (Forest.root_mem keeps'' (Or.inl rfl)) (dropped.mono more)
              exact R.ret (next false _ dropped)
            · intro h' _ keeps' _ _
              apply ih keeps'
              rw [Nat.add_mod_right, aligned]
      · exact R.ret (next true h keeps)

theorem uvmAlloc_keeps {post : Nat → Heap kernelEnd → Prop}
    (panics : ∀ message, R.mayPanic message) (keeps : h.Keeps roots) (more : R.live ⊆ roots)
    (tree : (pgdir, 4) ∈ roots) (next : ∀ sz h', h'.Keeps roots → post sz h') :
    R.wp (uvmAlloc kernelEnd pgdir oldsz newsz) h post := by
  rw [uvmAlloc]
  split
  · exact R.ret (next 0 h keeps)
  · split
    · exact R.ret (next oldsz h keeps)
    · apply R.bind
      apply uvmAllocLoop_keeps panics keeps more tree (ROUNDUP_aligned _ _)
      intro done h' keeps'
      cases done with
      | true => exact R.ret (next newsz h' keeps')
      | false => exact R.ret (next 0 h' keeps')

theorem uvmInit_keeps {post : Unit → Heap kernelEnd → Prop} {binary : List UInt8}
    (panics : ∀ message, R.mayPanic message) (keeps : h.Keeps roots) (more : R.live ⊆ roots)
    (tree : (pgdir, 4) ∈ roots) (next : ∀ h', h'.Keeps roots → post () h') :
    R.wp (uvmInit pgdir binary) h post := by
  rw [uvmInit]
  split
  · exact R.panic (panics _)
  · apply R.bind
    apply Rules.kalloc (keeps.mono more)
    · intro _
      exact R.panic (panics _)
    · intro mem usable new _
      have outside : (mem, 0) ∉ roots := keeps.not_root new
      have inHand : (h.take mem (filled 0) usable).Keeps (insert (mem, 0) roots) :=
        keeps.take new
      apply R.bind
      apply R.fill Heap.take_page_same
      · rw [Heap.take_put]
        exact inHand.mono (more.trans (Set.subset_insert _ _))
      · rw [Heap.take_put]
        apply R.bind
        apply mapRegion_keeps inHand outside more tree (by decide) (by decide) (panics _)
        · intro h' keeps'
          rcases Heap.mem_owned.mp (Forest.root_mem keeps' (Or.inl rfl)) with ⟨page, here⟩
          have written : (h'.put mem (Bytes.splice page 0 binary)
              (Heap.usable_of_page here)).Keeps roots :=
            (keeps'.rewrite_root (Or.inl rfl)).mono (Set.subset_insert _ _)
          exact R.write here (written.mono more) (next _ written)
        · intro h' path keeps' four found
          rcases Heap.mem_owned.mp (Forest.mem keeps' pgdir 4 tree path mem four.le found) with
            ⟨page, here⟩
          have written : (h'.put mem (Bytes.splice page 0 binary)
              (Heap.usable_of_page here)).Keeps roots :=
            keeps'.rewrite_leaf tree four found
          exact R.write here (written.mono more) (next _ written)

/-! ## `copyuvm` -/

theorem copyuvmLoop_keeps {post : Option Nat → Heap kernelEnd → Prop}
    (panics : ∀ message, R.mayPanic message) (keeps : h.Keeps (insert (newPgdir, 4) roots))
    (outside : (newPgdir, 4) ∉ roots) (more : R.live ⊆ roots) (tree : (pgdir, 4) ∈ roots)
    (aligned : i % PGSIZE = 0)
    (fail : ∀ h', h'.Keeps roots → post none h')
    (done : ∀ h', h'.Keeps (insert (newPgdir, 4) roots) → post (some newPgdir) h') :
    R.wp (copyuvmLoop kernelEnd pgdir newPgdir sz fuel i) h post := by
  have more' : R.live ⊆ insert (newPgdir, 4) roots := more.trans (Set.subset_insert _ _)
  -- Where memory runs out, only the root of the new tree is freed.
  have giveUp : ∀ h' : Heap kernelEnd, h'.Keeps (insert (newPgdir, 4) roots) →
      R.wp (do kfree kernelEnd newPgdir; return none) h' post := by
    intro h' keeps'
    have dropped := keeps'.drop_root outside
    apply R.bind
    apply Rules.kfree (Forest.root_mem keeps' (Or.inl rfl)) (dropped.mono more)
    exact R.ret (fail _ dropped)
  induction fuel generalizing h i with
  | zero => exact R.ret (done h keeps)
  | succ fuel ih =>
      rw [copyuvmLoop]
      split
      · apply R.bind
        apply pgdirWalk_find keeps (Or.inr tree)
        cases found : h.links.follow pgdir (walkPath i 3 0) with
        | none => exact R.panic (panics _)
        | some t =>
            have three : (walkPath i 3 0).length = 3 := walkPath_length
            rcases Heap.mem_owned.mp
              (Forest.mem keeps pgdir 4 (Or.inr tree) _ t (by omega) found) with ⟨table, here⟩
            apply R.bind
            apply R.word here
            split
            · exact R.panic (panics _)
            · apply R.bind
              apply Rules.kalloc (keeps.mono more')
              · intro _
                exact giveUp h keeps
              · intro mem usable new _
                apply R.bind
                apply R.copy Heap.take_page_same
                intro contents _
                rw [Heap.take_put]
                have inHand : (h.take mem contents usable).Keeps
                    (insert (mem, 0) (insert (newPgdir, 4) roots)) := keeps.take new
                refine ⟨inHand.mono (more'.trans (Set.subset_insert _ _)), ?_⟩
                apply R.bind
                apply mapRegion_keeps inHand (keeps.not_root new) more' (Or.inl rfl) aligned
                  _ (panics _)
                · intro h' keeps'
                  exact giveUp h' (keeps'.mono (Set.subset_insert _ _))
                · intro h' _ keeps' _ _
                  apply ih keeps'
                  rw [Nat.add_mod_right, aligned]
                · exact lt_of_le_of_lt Nat.and_le_right (by decide)
      · exact R.ret (done h keeps)

theorem copyuvm_keeps {post : Option Nat → Heap kernelEnd → Prop}
    (panics : ∀ message, R.mayPanic message) (keeps : h.Keeps roots) (more : R.live ⊆ roots)
    (tree : (pgdir, 4) ∈ roots)
    (fail : ∀ h', h'.Keeps roots → post none h')
    (done : ∀ newPgdir h', h.page newPgdir = none → h'.Keeps (insert (newPgdir, 4) roots) →
      post (some newPgdir) h') :
    R.wp (copyuvm kernelEnd pgdir sz) h post := by
  apply R.bind
  apply pgdirInit_keeps keeps more (fun _ => panics _)
  intro newPgdir usable new _ keeps'
  exact copyuvmLoop_keeps panics keeps' (keeps.not_root new) more tree (by decide) fail
    fun h' => done newPgdir h' new

end PiKernel.Vm
