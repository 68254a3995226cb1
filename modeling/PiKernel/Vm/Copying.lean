import PiKernel.Vm.Image

/-!
# `copyuvm`

The address space of a child is built page by page, and costs what a `Span` of as many pages
costs.  Where the memory runs out only the root of the new tables is given back: the pages
that hang in it stay taken.
-/

namespace PiKernel.Vm

open PiKernel.Conc
open PiKernel.Conc.Prog (perform)

variable {kernelEnd : Nat} {Pid : Type} {R : Rules kernelEnd Pid}
  {h h' h'' : Heap kernelEnd} {roots : Set (Nat × Nat)}
  {pgdir newPgdir x k sz fuel w : Nat} {page : Page} {path : List Nat}

/-! ## A copy under construction -/

/-- The first `k` pages of an address space have been copied into new pages. -/
structure Copying (h h' : Heap kernelEnd) (roots : Set (Nat × Nat)) (pgdir newPgdir k : Nat) :
    Prop where
  keeps : h'.Keeps (insert (newPgdir, 4) roots)
  span : ∃ shown, Span h' newPgdir k shown
  spent : Spent h h' (need k)
  owned : ∀ x, x ∈ h.owned → x ∈ h'.owned
  parent : ∀ (path : List Nat) x, path.length ≤ 4 → h.links.follow pgdir path = some x →
    h'.page x = h.page x
  start : k = 0 → h'.page = h.page
  copied : 0 < k → ∃ x, h.page x = none ∧ x ∈ h'.owned

/--
What is left where the memory runs out: everything as before, or a page that was free and is
taken; the new root is the only page that is given back.
-/
inductive Abandoned (h : Heap kernelEnd) (newPgdir : Nat) (h' : Heap kernelEnd) : Prop where
  | clean (short : Short h 1) (same : h'.page = (h.drop newPgdir).page)
  | leak {x : Nat} (enough : ∀ n, h.supply = some n → 1 ≤ n) (free : h.page x = none)
      (lost : x ∈ h'.owned)

namespace Copying

theorem refl (keeps : h.Keeps (insert (newPgdir, 4) roots))
    (empty : h.page newPgdir = some (filled 0)) : Copying h h roots pgdir newPgdir 0 where
  keeps := keeps
  span := ⟨fun _ => true, .empty empty⟩
  spent := .refl
  owned _ here := here
  parent _ _ _ _ := rfl
  start _ := rfl
  copied positive := absurd positive (Nat.lt_irrefl 0)

/-- The address space that is copied stays. -/
theorem follow (copying : Copying h h' roots pgdir newPgdir k) (short : path.length ≤ 4) :
    h'.links.follow pgdir path = h.links.follow pgdir path := by
  refine Links.follow_congr ?_ short
  intro before y shorter found
  funext i
  rw [Heap.links, Heap.links, copying.parent before y shorter.le found]

theorem fresh (copying : Copying h h' roots pgdir newPgdir k) (new : h'.page x = none) :
    h.page x = none := by
  rw [Option.eq_none_iff_forall_ne_some]
  intro page here
  rcases Heap.mem_owned.mp (copying.owned x (Heap.mem_owned.mpr ⟨page, here⟩)) with ⟨_, there⟩
  rw [new] at there
  cases there

end Copying

theorem need_pos (positive : 0 < k) : 1 ≤ need k :=
  le_trans positive (Nat.le_add_right k _)

/-- An entry that is present passes the check of `copyuvm`. -/
theorem flags_ne_zero (here : present w) : w &&& (PTE_PAGE ||| PTE_P) ≠ 0 := by
  intro zero
  have bit := congrArg (fun n => n.testBit 0) zero
  simp only [Nat.testBit_and, Nat.zero_testBit] at bit
  rw [show w.testBit 0 = true from here] at bit
  exact absurd bit (by decide)

/-- A page from the free list is no table. -/
theorem Span.take {shown : Nat → Bool} {usable : Usable kernelEnd x}
    (span : Span h pgdir k shown) (keeps : h.Keeps roots) (tree : (pgdir, 4) ∈ roots)
    (new : h.page x = none) : Span (h.take x page usable) pgdir k shown := by
  apply span.congr
  intro path y short found
  apply Heap.take_page_other
  rintro rfl
  rcases Heap.mem_owned.mp (Forest.mem keeps pgdir 4 tree path y (by omega) found) with
    ⟨page, owned⟩
  rw [new] at owned
  cases owned

/-- Whether the process can access the next page is still open. -/
theorem Span.reshow {shown : Nat → Bool} {access : Bool} (span : Span h pgdir k shown) :
    Span h pgdir k (Function.update shown k access) := by
  apply span.weaken fun _ => Iff.rfl
  intro path w entry
  rcases path with _ | ⟨a, _ | ⟨b, _ | ⟨c, _ | ⟨d, _ | ⟨e, rest⟩⟩⟩⟩⟩
  case cons.cons.cons.cons.nil =>
    intro first second
    have entry' := entry first second
    by_cases below : c * ENTRYSZ + d < k
    · rw [if_pos below] at entry' ⊢
      rw [Function.update_of_ne below.ne]
      exact entry'
    · rw [if_neg below] at entry' ⊢
      exact entry'
  all_goals trivial

/-! ## The loop -/

/-- One more page has been copied. -/
theorem Copying.push {mem : Nat} {contents : Page} {usable : Usable kernelEnd mem}
    {entered : List Nat → Option Nat} {shown : Nat → Bool}
    (copying : Copying h h' roots pgdir newPgdir k) (outside : (newPgdir, 4) ∉ roots)
    (tree : (pgdir, 4) ∈ roots) (new : h'.page mem = none) (full : h'.supply ≠ some 0)
    (keeps : h''.Keeps (insert (newPgdir, 4) roots))
    (spent : Spent (h'.take mem contents usable) h'' (tablePages (k + 1) - tablePages k))
    (span : Span h'' newPgdir (k + 1) shown)
    (retabled : Retabled (h'.take mem contents usable) h'' newPgdir entered) :
    Copying h h'' roots pgdir newPgdir (k + 1) where
  keeps := keeps
  span := ⟨shown, span⟩
  spent := by
    rw [need_succ]
    exact copying.spent.trans ((Spent.take full).trans spent)
  owned x here := by
    apply retabled.owned
    rw [Heap.owned_take]
    exact Or.inr (copying.owned x here)
  parent path x short found := by
    have inHand : (h'.take mem contents usable).Keeps
        (insert (mem, 0) (insert (newPgdir, 4) roots)) := copying.keeps.take new
    have found' : (h'.take mem contents usable).links.follow pgdir path = some x := by
      rw [copying.keeps.follow_take (Or.inr tree) new short, copying.follow short, found]
    have differs : pgdir ≠ newPgdir := by
      rintro rfl
      exact outside tree
    have other : x ≠ mem := by
      rintro rfl
      have owned := Forest.mem copying.keeps pgdir 4 (Or.inr tree) path x short
        ((copying.follow short).trans found)
      rcases Heap.mem_owned.mp owned with ⟨page, here⟩
      rw [new] at here
      cases here
    rw [retabled.tree_page inHand (Or.inr (Or.inl rfl)) (Or.inr (Or.inr tree)) differs short
      found', Heap.take_page_other other, copying.parent path x short found]
  start zero := absurd zero (Nat.succ_ne_zero k)
  copied _ := by
    refine ⟨mem, copying.fresh new, retabled.owned mem ?_⟩
    rw [Heap.owned_take]
    exact Or.inl rfl

/-- Only the new root is given back. -/
theorem Copying.abandon {post : Option Nat → Heap kernelEnd → Prop}
    (outside : (newPgdir, 4) ∉ roots) (more : R.live ⊆ roots)
    (keeps : h'.Keeps (insert (newPgdir, 4) roots))
    (next : post none (h'.drop newPgdir)) :
    R.wp (do kfree kernelEnd newPgdir; return none) h' post := by
  apply R.bind
  apply Rules.kfree (Forest.root_mem keeps (Or.inl rfl)) ((keeps.drop_root outside).mono more)
  exact R.ret next

theorem copyuvmLoop_span {post : Option Nat → Heap kernelEnd → Prop}
    (outside : (newPgdir, 4) ∉ roots) (more : R.live ⊆ roots) (tree : (pgdir, 4) ∈ roots)
    (root : newPgdir ∈ h.owned) (small : sz < UADDR_SZ) (below : k ≤ pages sz)
    (enough : pages sz ≤ k + fuel)
    (mapped : ∀ n, n < pages sz → (h.mapped pgdir n).isSome)
    (copying : Copying h h' roots pgdir newPgdir k)
    (fail : ∀ h'', Short h (need (pages sz)) → Abandoned h newPgdir h'' →
      post none h'')
    (done : ∀ h'', Copying h h'' roots pgdir newPgdir (pages sz) →
      post (some newPgdir) h'') :
    R.wp (copyuvmLoop kernelEnd pgdir newPgdir sz fuel (k * PGSIZE)) h' post := by
  have more' : R.live ⊆ insert (newPgdir, 4) roots := more.trans (Set.subset_insert _ _)
  -- A page that was free before is none of those that are given back.
  have lost : ∀ {x : Nat} {h'' : Heap kernelEnd}, (∀ n, h.supply = some n → 1 ≤ n) →
      h.page x = none → x ∈ h''.owned →
      Abandoned h newPgdir (h''.drop newPgdir) := by
    intro x h'' positive free taken
    have other : x ≠ newPgdir := by
      rintro rfl
      rcases Heap.mem_owned.mp root with ⟨page, here⟩
      rw [free] at here
      cases here
    apply Abandoned.leak positive free
    rw [Heap.owned_drop]
    exact ⟨taken, other⟩
  induction fuel generalizing h' k with
  | zero =>
      have all : k = pages sz := by omega
      exact R.ret (done h' (all ▸ copying))
  | succ fuel ih =>
      rw [copyuvmLoop]
      by_cases next : k * PGSIZE < sz
      · rw [if_pos next]
        rw [lt_pages] at next
        have bound := pages_lt small
        have cost := need_succ k
        have rest : need (k + 1) ≤ need (pages sz) := need_mono next
        have index : PTX 3 (k * PGSIZE) = k % ENTRYSZ := PTX_page k
        have position : k * PGSIZE + PGSIZE = (k + 1) * PGSIZE := by
          rw [Nat.add_mul, Nat.one_mul]
        rcases Option.isSome_iff_exists.mp (mapped k next) with ⟨y, leaf⟩
        rw [Heap.mapped, ← copying.follow leafPath_length.le] at leaf
        apply R.bind
        apply pgdirWalk_find copying.keeps (Or.inr tree)
        cases found : h'.links.follow pgdir (walkPath (k * PGSIZE) 3 0) with
        | none =>
            rw [leafPath, Links.follow_append, found] at leaf
            cases leaf
        | some t =>
            rcases Heap.mem_owned.mp
              (Forest.mem copying.keeps pgdir 4 (Or.inr tree) _ t
                (by rw [walkPath_length]; omega) found) with ⟨table, here⟩
            rw [leafPath, Links.follow_snoc found, Heap.links_of_page here] at leaf
            rw [Option.map_some, index]
            apply R.bind
            apply R.word here
            rw [if_neg (flags_ne_zero (children_eq_some leaf).1)]
            apply R.bind
            apply Rules.kalloc (copying.keeps.mono more')
            · intro empty
              have short := copying.spent.short (Short.of_empty empty)
              apply Copying.abandon outside more copying.keeps
              apply fail _ (short.mono (by omega))
              rcases Nat.eq_zero_or_pos k with rfl | positive
              · apply Abandoned.clean
                · exact short
                · have same := copying.start rfl
                  simp only [Heap.drop, same]
              · rcases copying.copied positive with ⟨x, free, taken⟩
                apply lost _ free taken
                intro n supply
                exact le_trans (need_pos positive) (copying.spent.2 n supply)
            · intro mem usable new full
              have taken : ∀ n, h.supply = some n → 1 ≤ n := by
                intro n supply
                by_contra none
                apply full
                rw [copying.spent.1, supply]
                simp only [Option.map_some, Option.some.injEq]
                omega
              apply R.bind
              apply R.copy Heap.take_page_same
              intro contents _
              rw [Heap.take_put]
              have inHand : (h'.take mem contents usable).Keeps
                  (insert (mem, 0) (insert (newPgdir, 4) roots)) := copying.keeps.take new
              refine ⟨inHand.mono (more'.trans (Set.subset_insert _ _)), ?_⟩
              rcases copying.span with ⟨shown, span⟩
              generalize perms : word table (k % ENTRYSZ) &&& (PTE_USER ||| PTE_RO) = perm
              have lowPerm : perm < PGSIZE := by
                rw [← perms]
                exact lt_of_le_of_lt Nat.and_le_right (by decide)
              have root' : (newPgdir, 4) ∈ insert (newPgdir, 4) roots := Or.inl rfl
              let shown' := Function.update shown k (perm.testBit 6)
              have span' : Span (h'.take mem contents usable) newPgdir k shown' :=
                (span.take copying.keeps root' new).reshow
              have unmapped : (h'.take mem contents usable).links.follow newPgdir
                  (leafPath k) = none := by
                rw [copying.keeps.follow_take root' new leafPath_length.le]
                have bare := span.contiguous copying.keeps root' (by omega) k
                  (by simp only [PAGES]; omega)
                exact Option.not_isSome_iff_eq_none.mp fun here => lt_irrefl k (bare.mp here)
              have retables : R.wp (mapRegion newPgdir (k * PGSIZE) PGSIZE mem perm)
                  (h'.take mem contents usable) fun _ h'' =>
                    ∃ entered, Retabled (h'.take mem contents usable) h'' newPgdir entered :=
                mapRegion_map inHand (copying.keeps.not_root new) more' root' lowPerm unmapped
                  (fun _ _ retabled => ⟨_, retabled⟩) (fun _ _ retabled => ⟨_, retabled⟩)
              apply R.bind
              apply Rules.knowing retables
              apply mapRegion_span inHand (copying.keeps.not_root new) more' root' span'
                (by omega) lowPerm (Function.update_self k _ shown).symm
              · rintro h'' keeps short ⟨entered, retabled⟩
                apply Copying.abandon outside more (keeps.mono (Set.subset_insert _ _))
                have step := (copying.spent.trans (Spent.take full)).short short
                apply fail _ (step.mono (by omega))
                exact lost taken (copying.fresh new) (Forest.root_mem keeps (Or.inl rfl))
              · rintro h'' keeps spent grown ⟨entered, retabled⟩
                rw [if_pos rfl, position]
                exact ih next (by omega)
                  (copying.push outside tree new full keeps spent grown retabled)
      · rw [if_neg next]
        rw [lt_pages] at next
        have all : k = pages sz := by omega
        exact R.ret (done h' (all ▸ copying))

/-- A copy costs its root and the pages of a span, or the child's pages are abandoned. -/
theorem copyuvm_span {post : Option Nat → Heap kernelEnd → Prop} (keeps : h.Keeps roots)
    (more : R.live ⊆ roots) (tree : (pgdir, 4) ∈ roots) (small : sz < UADDR_SZ)
    (mapped : ∀ n, n < pages sz → (h.mapped pgdir n).isSome)
    (empty : h.supply = none ∨ h.supply = some 0 →
      R.mayPanic "pgdir_init: kalloc failed\n")
    (fail : ∀ newPgdir usable h', h.page newPgdir = none → h.supply ≠ some 0 →
      Short (h.take newPgdir (filled 0) usable) (need (pages sz)) →
      Abandoned (h.take newPgdir (filled 0) usable) newPgdir h' → post none h')
    (done : ∀ newPgdir usable h', h.page newPgdir = none → h.supply ≠ some 0 →
      Copying (h.take newPgdir (filled 0) usable) h' roots pgdir newPgdir (pages sz) →
      post (some newPgdir) h') :
    R.wp (copyuvm kernelEnd pgdir sz) h post := by
  have enough : pages sz ≤ 0 + (sz / PGSIZE + 1) := by
    simp only [pages, PGSIZE]
    omega
  have start : (0 : Nat) = 0 * PGSIZE := (Nat.zero_mul PGSIZE).symm
  rw [copyuvm, start]
  apply R.bind
  apply pgdirInit_keeps keeps more empty
  intro newPgdir usable new full keeps'
  apply copyuvmLoop_span (keeps.not_root new) more tree _ small (Nat.zero_le _) enough _
    (.refl keeps' Heap.take_page_same)
  · exact fun h' => fail newPgdir usable h' new full
  · exact fun h' => done newPgdir usable h' new full
  · rw [Heap.owned_take]
    exact Or.inl rfl
  · intro n below
    rw [Heap.mapped, keeps.follow_take tree new leafPath_length.le]
    exact mapped n below

end PiKernel.Vm
