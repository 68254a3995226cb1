import PiKernel.Vm.Copying
import PiKernel.Vm.Region

/-!
# What `copyuvm` copies

A copy that succeeds has an entry for every entry of the parent: for a page of its own with the
same bytes, and with the same permissions.  The two trees share no page, so that what is written
through one of them cannot be seen through the other.
-/

namespace PiKernel.Vm

open PiKernel.Bytes
open PiKernel.Conc
open PiKernel.Conc.Prog (perform)

variable {kernelEnd : Nat} {Pid : Type} {R : Rules kernelEnd Pid}
  {h h' h'' : Heap kernelEnd} {roots : Set (Nat × Nat)}
  {pgdir newPgdir t x y k n sz fuel va w height : Nat} {page : Page} {path : List Nat}

/-! ## The copied entries -/

/-- Where the tables agree, so do the entries. -/
theorem Heap.pte_congr (keeps : h.Keeps roots) (tree : (pgdir, height) ∈ roots) (tall : 3 ≤ height)
    (same : ∀ (path : List Nat) x, path.length ≤ 3 → h.links.follow pgdir path = some x →
      h'.page x = h.page x) (three : path.length = 3) (i : Nat) :
    h'.pte pgdir (path ++ [i]) = h.pte pgdir (path ++ [i]) := by
  have follows : h'.links.follow pgdir path = h.links.follow pgdir path := by
    refine Links.follow_congr ?_ three.le
    intro before x shorter found
    funext j
    rw [Heap.links, Heap.links, same before x shorter.le found]
  cases found : h.links.follow pgdir path with
  | none => rw [Heap.pte_absent (follows.trans found), Heap.pte_absent found]
  | some t =>
      rcases Heap.mem_owned.mp
        (Forest.mem keeps pgdir height tree path t (by omega) found) with ⟨page, here⟩
      rw [Heap.pte_snoc (follows.trans found) ((same path t three.le found).trans here),
        Heap.pte_snoc found here]

/-- A page from the free list is no table. -/
theorem Heap.pte_take {usable : Usable kernelEnd x} (keeps : h.Keeps roots)
    (tree : (pgdir, height) ∈ roots) (tall : 3 ≤ height) (new : h.page x = none)
    (three : path.length = 3) {i : Nat} :
    (h.take x page usable).pte pgdir (path ++ [i]) = h.pte pgdir (path ++ [i]) := by
  refine Heap.pte_congr keeps tree tall ?_ three i
  intro before y short found
  apply Heap.take_page_other
  rintro rfl
  rcases Heap.mem_owned.mp (Forest.mem keeps pgdir height tree before y (by omega) found) with
    ⟨table, here⟩
  rw [new] at here
  cases here

/-- The entry for a copy at `y` of a page with the entry `w`. -/
def cloneEntry (y w : Nat) : Nat :=
  entry y (pageFlags (w &&& (PTE_USER ||| PTE_RO)))

theorem permissions_lt : w &&& (PTE_USER ||| PTE_RO) < PGSIZE :=
  lt_of_le_of_lt Nat.and_le_right (by decide)

theorem present_cloneEntry : present (cloneEntry y w) = true :=
  present_page permissions_lt

theorem pageOf_cloneEntry : pageOf (cloneEntry y w) = y :=
  pageOf_entry (pageFlags_lt permissions_lt)

/-- The copy has the permissions of the page. -/
theorem permissions_cloneEntry :
    cloneEntry y w &&& (PTE_USER ||| PTE_RO) = w &&& (PTE_USER ||| PTE_RO) := by
  apply Nat.eq_of_testBit_eq
  intro i
  rcases Nat.lt_or_ge i 12 with low | high
  · rw [Nat.testBit_and, cloneEntry, testBit_entry (pageFlags_lt permissions_lt) low]
    simp only [pageFlags, Nat.testBit_or, Nat.testBit_and]
    -- the flags that `map_region` adds are none of the two
    have others : ((PTE_P ||| PTE_TABLE ||| PTE_AF ||| PTE_NORMAL) &&&
        (PTE_USER ||| PTE_RO)).testBit i = false := by
      rw [show (PTE_P ||| PTE_TABLE ||| PTE_AF ||| PTE_NORMAL) &&& (PTE_USER ||| PTE_RO) = 0 from
        rfl, Nat.zero_testBit]
    simp only [Nat.testBit_or, Nat.testBit_and] at others
    revert others
    cases w.testBit i <;> cases PTE_USER.testBit i <;> cases PTE_RO.testBit i <;> simp
  · have small : (PTE_USER ||| PTE_RO).testBit i = false := by
      apply Nat.testBit_lt_two_pow
      calc PTE_USER ||| PTE_RO < 2 ^ 12 := by decide
        _ ≤ 2 ^ i := Nat.pow_le_pow_right (by decide) high
    rw [Nat.testBit_and, Nat.testBit_and, small, Bool.and_false, Bool.and_false]

/-! ## The loop -/

/-- The first `k` pages of an address space have been copied into new pages. -/
structure Cloning (h h' : Heap kernelEnd) (roots : Set (Nat × Nat)) (pgdir newPgdir k : Nat) :
    Prop where
  keeps : h'.Keeps (insert (newPgdir, 4) roots)
  root : newPgdir ∉ h.owned
  owned : ∀ x, x ∈ h.owned → x ∈ h'.owned
  same : ∀ x, x ∈ h.owned → h'.page x = h.page x
  tables : ∀ (path : List Nat) x, path.length ≤ 3 → h'.links.follow newPgdir path = some x →
    x ∉ h.owned
  copied : ∀ n, n < k → ∃ y, h.page y = none ∧
    h'.pte newPgdir (leafPath n) = cloneEntry y (h.pte pgdir (leafPath n)) ∧
      h'.page y = h.page (pageOf (h.pte pgdir (leafPath n)))
  rest : ∀ n, n < PAGES → k ≤ n → valid (h'.pte newPgdir (leafPath n)) = none

namespace Cloning

/-- The new root is empty. -/
theorem start {usable : Usable kernelEnd newPgdir} (new : h.page newPgdir = none)
    (keeps : (h.take newPgdir (filled 0) usable).Keeps (insert (newPgdir, 4) roots)) :
    Cloning h (h.take newPgdir (filled 0) usable) roots pgdir newPgdir 0 where
  keeps := keeps
  root here := by
    rcases Heap.mem_owned.mp here with ⟨page, owned⟩
    rw [new] at owned
    cases owned
  owned x here := by
    rw [Heap.owned_take]
    exact Or.inr here
  same x here := by
    apply Heap.take_page_other
    rintro rfl
    rcases Heap.mem_owned.mp here with ⟨page, owned⟩
    rw [new] at owned
    cases owned
  tables path x _ found here := by
    rcases path with _ | ⟨i, path⟩
    · cases found
      rcases Heap.mem_owned.mp here with ⟨page, owned⟩
      rw [new] at owned
      cases owned
    · rw [Links.follow_cons, Heap.links_of_page Heap.take_page_same, children_filled] at found
      cases found
  copied n below := absurd below (Nat.not_lt_zero n)
  rest n _ _ := by
    have first : (h.take newPgdir (filled 0) usable).links.follow newPgdir
        (walkPath (n * PGSIZE) 3 0) = none := by
      rw [walkPath, Links.follow_cons, Heap.links_of_page Heap.take_page_same, children_filled,
        Option.bind_none]
    rw [leafPath, Heap.pte_absent first, valid_zero]

/-- The tables of the parent stay. -/
theorem follow (cloning : Cloning h h' roots pgdir newPgdir k) (keeps : h.Keeps roots)
    (tree : (pgdir, 4) ∈ roots) (short : path.length ≤ 4) :
    h'.links.follow pgdir path = h.links.follow pgdir path := by
  refine Links.follow_congr ?_ short
  intro before x shorter found
  funext i
  rw [Heap.links, Heap.links,
    cloning.same x (Forest.mem keeps pgdir 4 tree before x shorter.le found)]

/-- One more page has been copied. -/
theorem push {mem : Nat} {contents : Page} {usable : Usable kernelEnd mem}
    (cloning : Cloning h h' roots pgdir newPgdir k) (low : k < PAGES) (new : h'.page mem = none)
    (keeps : h''.Keeps (insert (newPgdir, 4) roots))
    (copy : some contents = h.page (pageOf (h.pte pgdir (leafPath k))))
    (retabled : Retabled (h'.take mem contents usable) h'' newPgdir
      (Function.update ((h'.take mem contents usable).links.follow newPgdir) (leafPath k)
        (some mem)))
    (entering : Entering (h'.take mem contents usable) h'' newPgdir k k (k + 1) fun m =>
      regionEntry mem (h.pte pgdir (leafPath k) &&& (PTE_USER ||| PTE_RO)) (m - k)) :
    Cloning h h'' roots pgdir newPgdir (k + 1) := by
  have root : (newPgdir, 4) ∈ insert (newPgdir, 4) roots := Or.inl rfl
  have inHand : (h'.take mem contents usable).Keeps
      (insert (mem, 0) (insert (newPgdir, 4) roots)) := cloning.keeps.take new
  have fresh : ∀ {x}, x ∈ h'.owned → x ≠ mem := by
    rintro x here rfl
    rcases Heap.mem_owned.mp here with ⟨page, owned⟩
    rw [new] at owned
    cases owned
  have follows : ∀ (path : List Nat), path.length ≤ 4 →
      (h'.take mem contents usable).links.follow newPgdir path =
        h'.links.follow newPgdir path := fun path short => cloning.keeps.follow_take root new short
  have entries : ∀ n, (h'.take mem contents usable).pte newPgdir (leafPath n) =
      h'.pte newPgdir (leafPath n) :=
    fun n => Heap.pte_take cloning.keeps root (by decide) new walkPath_length
  have ends : ∀ x, x ∈ h'.owned →
      (∀ path : List Nat, path.length ≤ 3 → h'.links.follow newPgdir path ≠ some x) →
        h''.page x = h'.page x := by
    intro x here noTable
    rw [retabled.other x, Heap.take_page_other (fresh here)]
    · rw [Heap.owned_take]
      exact Or.inr here
    · intro path short found
      rw [follows path (by omega)] at found
      exact noTable path short found
  constructor
  · exact keeps
  · exact cloning.root
  · intro x here
    apply retabled.owned
    rw [Heap.owned_take]
    exact Or.inr (cloning.owned x here)
  · intro x here
    rw [ends x (cloning.owned x here), cloning.same x here]
    intro path short found
    exact cloning.tables path x short found here
  · intro path x short found here
    rcases retabled.tables path x short found with before | new'
    · rw [follows path (by omega)] at before
      exact cloning.tables path x short before here
    · rw [Heap.owned_take] at new'
      exact new' (Or.inr (cloning.owned x here))
  · intro n below
    by_cases last : n = k
    · subst last
      refine ⟨mem, ?_, ?_, ?_⟩
      · rw [Option.eq_none_iff_forall_ne_some]
        intro page here
        exact fresh (cloning.owned mem (Heap.mem_owned.mpr ⟨page, here⟩)) rfl
      · rw [entering.entered n le_rfl (Nat.lt_succ_self n), Nat.sub_self, regionEntry, Nat.add_zero,
          Nat.mod_eq_of_lt (usable.entry_lt (pageFlags_lt permissions_lt)), cloneEntry]
      · have inside : mem ∈ (h'.take mem contents usable).owned := by
          rw [Heap.owned_take]
          exact Or.inl rfl
        rw [retabled.other mem inside, Heap.take_page_same, copy]
        intro path short found
        rcases inHand.apart (Or.inl rfl) (Or.inr root) (by omega) found with ⟨_, impossible⟩
        cases impossible
    · have before : n < k := by omega
      rcases cloning.copied n before with ⟨y, free, copied, contents'⟩
      have leaf : h'.links.follow newPgdir (leafPath n) = some y := by
        change h'.mapped newPgdir n = some y
        rw [Heap.mapped_pte, copied, target, if_pos present_cloneEntry, pageOf_cloneEntry]
      refine ⟨y, free, ?_, ?_⟩
      · rw [entering.kept n (by omega) (by omega), entries, copied]
      · rw [ends y (Forest.mem cloning.keeps newPgdir 4 root _ y leafPath_length.le leaf),
          contents']
        intro path short found
        have equal := Forest.once cloning.keeps newPgdir 4 root newPgdir 4 root path (leafPath n) y
          (by omega) leafPath_length.le found leaf
        rw [equal.2.2, leafPath_length] at short
        omega
  · intro n low' above
    rw [entering.kept n low' (by omega), entries]
    exact cloning.rest n low' (by omega)

end Cloning

/-- A page in hand is mapped, and its entry is the only new one. -/
theorem mapRegion_entry {post : Bool → Heap kernelEnd → Prop} {perm : Nat}
    (keeps : h.Keeps (insert (x, 0) (insert (pgdir, 4) roots)))
    (unmapped : (x, 0) ∉ insert (pgdir, 4) roots) (outside : (pgdir, 4) ∉ roots)
    (more : R.live ⊆ roots) (low : n < PAGES) (lowPerm : perm < PGSIZE)
    (free : valid (h.pte pgdir (leafPath n)) = none)
    (fail : ∀ h', h'.Keeps (insert (x, 0) (insert (pgdir, 4) roots)) → post false h')
    (done : ∀ h', h'.Keeps (insert (pgdir, 4) roots) →
      Retabled h h' pgdir (Function.update (h.links.follow pgdir) (leafPath n) (some x)) →
      (Entering h h' pgdir n n (n + 1) fun m => regionEntry x perm (m - n)) → post true h') :
    R.wp (mapRegion pgdir (n * PGSIZE) PGSIZE x perm) h post := by
  have absent : h.links.follow pgdir (leafPath n) = none := by
    rw [valid_eq_none, ← Heap.mapped_pte] at free
    exact free
  have outside' : (pgdir, 4) ∉ insert (x, 0) roots := by
    rintro (equal | member)
    · cases equal
    · exact outside member
  have last : (n * PGSIZE + PGSIZE - 1) / PGSIZE = n := by
    simp only [PGSIZE]
    omega
  have first : n * PGSIZE / PGSIZE = n := Nat.mul_div_cancel _ (by decide)
  have bound : n * PGSIZE + PGSIZE ≤ 2 ^ 48 := by
    simp only [PAGES, PGSIZE] at low ⊢
    omega
  have tables : h.Keeps (insert (pgdir, 3) (insert (x, 0) roots)) := by
    rw [Set.insert_comm] at keeps
    exact Forest.sub keeps outside' Links.follow_nil (by decide)
  have entered : R.wp (mapRegion pgdir (n * PGSIZE) PGSIZE x perm) h fun done h' =>
      done = true → Entering h h' pgdir n n (n + 1) fun m => regionEntry x perm (m - n) := by
    apply mapRegion_enters tables _ (Or.inl rfl) (by decide) bound
    · intro m region
      rw [inRegion_iff (by decide), first, last] at region
      rw [show m = n by omega]
      exact free
    · exact fun _ _ _ _ _ _ impossible => by cases impossible
    · intro h' _ entering _
      rw [first, last] at entering
      exact entering
    · exact more.trans ((Set.subset_insert _ _).trans (Set.subset_insert _ _))
  apply Rules.knowing entered
  apply mapRegion_map keeps unmapped (more.trans (Set.subset_insert _ _)) (Or.inl rfl) lowPerm
    absent
  · exact fun h' keeps' _ _ => fail h' keeps'
  · exact fun h' keeps' retabled entering => done h' keeps' retabled (entering rfl)

theorem copyuvmLoop_clones {post : Option Nat → Heap kernelEnd → Prop} (keeps : h.Keeps roots)
    (outside : (newPgdir, 4) ∉ roots) (more : R.live ⊆ roots) (tree : (pgdir, 4) ∈ roots)
    (small : pages sz ≤ PAGES) (below : k ≤ pages sz) (enough : pages sz ≤ k + fuel)
    (mapped : ∀ n, n < pages sz → (h.mapped pgdir n).isSome)
    (cloning : Cloning h h' roots pgdir newPgdir k)
    (fail : ∀ h'', post none h'')
    (done : ∀ h'', Cloning h h'' roots pgdir newPgdir (pages sz) → post (some newPgdir) h'') :
    R.wp (copyuvmLoop kernelEnd pgdir newPgdir sz fuel (k * PGSIZE)) h' post := by
  have more' : R.live ⊆ insert (newPgdir, 4) roots := more.trans (Set.subset_insert _ _)
  induction fuel generalizing h' k with
  | zero =>
      have all : k = pages sz := by omega
      exact R.ret (done h' (all ▸ cloning))
  | succ fuel ih =>
      rw [copyuvmLoop]
      by_cases next : k * PGSIZE < sz
      · rw [if_pos next]
        rw [lt_pages] at next
        have index : PTX 3 (k * PGSIZE) = k % ENTRYSZ := PTX_page k
        have position : k * PGSIZE + PGSIZE = (k + 1) * PGSIZE := by
          rw [Nat.add_mul, Nat.one_mul]
        have low : k < PAGES := by omega
        rcases Option.isSome_iff_exists.mp (mapped k next) with ⟨y, leaf⟩
        have held := Forest.mem keeps pgdir 4 tree _ y leafPath_length.le leaf
        apply R.bind
        apply pgdirWalk_find cloning.keeps (Or.inr tree)
        rw [cloning.follow keeps tree (by rw [walkPath_length]; omega)]
        cases found : h.links.follow pgdir (walkPath (k * PGSIZE) 3 0) with
        | none =>
            rw [Heap.mapped, leafPath, Links.follow_append, found] at leaf
            cases leaf
        | some t =>
            have table := Forest.mem keeps pgdir 4 tree _ t (by rw [walkPath_length]; omega) found
            rcases Heap.mem_owned.mp table with ⟨page, here⟩
            have entry : h.pte pgdir (leafPath k) = word page (k % ENTRYSZ) :=
              Heap.pte_snoc found here
            rw [Heap.mapped_pte, entry, target] at leaf
            split at leaf
            case isFalse => cases leaf
            case isTrue present =>
              rw [Option.map_some, index]
              apply R.bind
              apply R.word ((cloning.same t table).trans here)
              rw [if_neg (flags_ne_zero present)]
              apply R.bind
              apply Rules.kalloc (cloning.keeps.mono more')
              · intro _
                exact Copying.abandon outside more cloning.keeps (fail _)
              · intro mem usable new _
                apply R.bind
                apply R.copy Heap.take_page_same
                intro contents copy
                rw [Heap.take_put]
                have inHand : (h'.take mem contents usable).Keeps
                    (insert (mem, 0) (insert (newPgdir, 4) roots)) := cloning.keeps.take new
                refine ⟨inHand.mono (more'.trans (Set.subset_insert _ _)), ?_⟩
                have contents_y : some contents = h.page (pageOf (h.pte pgdir (leafPath k))) := by
                  rcases Heap.mem_owned.mp held with ⟨original, owned⟩
                  have other : y ≠ mem := by
                    rintro rfl
                    rw [cloning.same y held, owned] at new
                    cases new
                  rw [Option.some.inj leaf, Heap.take_page_other other, cloning.same y held,
                    owned] at copy
                  rw [entry, Option.some.inj leaf, owned]
                  rcases copy with same | none
                  · exact same.symm
                  · cases none
                have free : valid ((h'.take mem contents usable).pte newPgdir (leafPath k)) =
                    none := by
                  rw [leafPath, Heap.pte_take cloning.keeps (Or.inl rfl) (by decide) new
                    walkPath_length]
                  exact cloning.rest k low le_rfl
                rw [← entry]
                apply R.bind
                apply mapRegion_entry inHand (cloning.keeps.not_root new) outside more low
                  permissions_lt free
                · intro h'' keeps''
                  rw [if_neg Bool.false_ne_true]
                  exact Copying.abandon outside more (keeps''.mono (Set.subset_insert _ _)) (fail _)
                · intro h'' keeps'' retabled entering
                  rw [if_pos rfl, position]
                  exact ih next (by omega)
                    (cloning.push low new keeps'' contents_y retabled entering)
      · rw [if_neg next]
        rw [lt_pages] at next
        have all : k = pages sz := by omega
        exact R.ret (done h' (all ▸ cloning))

/-- A call that succeeds has copied all pages. -/
theorem copyuvm_clones {post : Option Nat → Heap kernelEnd → Prop} (keeps : h.Keeps roots)
    (more : R.live ⊆ roots) (tree : (pgdir, 4) ∈ roots) (small : pages sz ≤ PAGES)
    (mapped : ∀ n, n < pages sz → (h.mapped pgdir n).isSome)
    (empty : h.supply = none ∨ h.supply = some 0 → R.mayPanic "pgdir_init: kalloc failed\n")
    (fail : ∀ h', post none h')
    (done : ∀ newPgdir h', Cloning h h' roots pgdir newPgdir (pages sz) →
      post (some newPgdir) h') :
    R.wp (copyuvm kernelEnd pgdir sz) h post := by
  have enough : pages sz ≤ 0 + (sz / PGSIZE + 1) := by
    simp only [pages, PGSIZE]
    omega
  have start : (0 : Nat) = 0 * PGSIZE := (Nat.zero_mul PGSIZE).symm
  rw [copyuvm, start]
  apply R.bind
  apply pgdirInit_keeps keeps more empty
  intro newPgdir usable new _ keeps'
  exact copyuvmLoop_clones keeps (keeps.not_root new) more tree small (Nat.zero_le _) enough mapped
    (.start new keeps') fail (done newPgdir)

/-- There are not more pages than memory has. -/
theorem Contiguous.small (contiguous : Contiguous h pgdir k) (keeps : h.Keeps roots)
    (tree : (pgdir, 4) ∈ roots) : k ≤ PHYSTOP / PGSIZE := by
  by_contra many
  have low : ∀ n, n < PHYSTOP / PGSIZE + 1 → n < PAGES := by
    intro n below
    simp only [PHYSTOP, PGSIZE, PAGES] at below ⊢
    omega
  have few : PHYSTOP / PGSIZE + 1 ≤ PHYSTOP / PGSIZE := by
    apply Heap.few_mapped keeps tree id
    · intro n m below below' same
      rwa [id, id, Nat.mod_eq_of_lt (low n below), Nat.mod_eq_of_lt (low m below')] at same
    · exact fun n below => (contiguous n (low n below)).mpr (by omega)
  omega

/-! ## Writes through page tables -/

/-- A byte that a process writes to an address. -/
structure Store where
  pgdir : Nat
  va : Nat
  byte : UInt8

/-- The byte gets to the page that is mapped there. -/
def Machine.store (s : Machine Pid) (w : Store) : Machine Pid :=
  match mappedPage s.mem w.pgdir w.va with
  | none => s
  | some x => s.setMem x (splice (s.mem x) (w.va % PGSIZE) [w.byte])

/-- Some bytes are written, one after the other. -/
def Machine.stores (s : Machine Pid) (writes : List Store) : Machine Pid :=
  writes.foldl Machine.store s

section Stores

variable {p : Pid} {s s' : Machine Pid} {dir : Nat} {write : Store}

/-- An address space is in two memories the same. -/
def SameTree (s s' : Machine Pid) (dir : Nat) : Prop :=
  ∀ (path : List Nat) x, path.length ≤ 4 → (links s.mem).follow dir path = some x →
    s'.mem x = s.mem x

theorem SameTree.follow (same : SameTree s s' dir) (short : path.length ≤ 4) :
    (links s'.mem).follow dir path = (links s.mem).follow dir path := by
  refine Links.follow_congr ?_ short
  intro before x shorter found
  rw [links, links, same before x shorter.le found]

theorem SameTree.mappedPage (same : SameTree s s' dir) :
    mappedPage s'.mem dir va = mappedPage s.mem dir va :=
  same.follow (by rw [walkPath_length])

theorem SameTree.byteOf (same : SameTree s s' dir) :
    byteOf s'.mem dir va = byteOf s.mem dir va := by
  rw [Vm.byteOf, Vm.byteOf, same.mappedPage]
  cases found : Vm.mappedPage s.mem dir va with
  | none => rfl
  | some x =>
      rw [Option.map_some, Option.map_some, same _ x (by rw [walkPath_length]) found]

theorem Machine.store_keeps (keeps : (s.view kernelEnd p).Keeps roots)
    (tree : (write.pgdir, 4) ∈ roots) : ((s.store write).view kernelEnd p).Keeps roots := by
  rw [store]
  cases found : mappedPage s.mem write.pgdir write.va with
  | none => exact keeps
  | some x => exact setMem_keeps keeps tree found

/-- A write through the tables of the address space. -/
theorem SameTree.store (same : SameTree s s' write.pgdir)
    (keeps : (s.view kernelEnd p).Keeps roots) (tree : (write.pgdir, 4) ∈ roots) :
    SameTree (s.store write) (s'.store write) write.pgdir := by
  rw [Machine.store, Machine.store, same.mappedPage]
  cases found : Vm.mappedPage s.mem write.pgdir write.va with
  | none => exact same
  | some x =>
      intro path y short reached
      rw [follow_setMem keeps tree tree found short] at reached
      simp only [Machine.setMem, same _ x (by rw [walkPath_length]) found]
      by_cases here : y = x
      · rw [here, Function.update_self, Function.update_self]
      · rw [Function.update_of_ne here, Function.update_of_ne here, same path y short reached]

/-- A write through the tables of another address space. -/
theorem SameTree.store_other (same : SameTree s s' dir) (keeps : (s.view kernelEnd p).Keeps roots)
    (tree : (write.pgdir, 4) ∈ roots) (tree' : (dir, 4) ∈ roots) (other : dir ≠ write.pgdir) :
    SameTree (s.store write) s' dir := by
  rw [Machine.store]
  cases found : Vm.mappedPage s.mem write.pgdir write.va with
  | none => exact same
  | some x =>
      intro path y short reached
      rw [follow_setMem keeps tree tree' found short] at reached
      have differs : y ≠ x := by
        rintro rfl
        rw [Machine.follow_view keeps tree' short] at reached
        rw [Vm.mappedPage, Machine.follow_view keeps tree (by rw [walkPath_length])] at found
        exact other (Forest.once keeps dir 4 tree' write.pgdir 4 tree path _ y short
          (by rw [walkPath_length]) reached found).1
      simp only [Machine.setMem, Function.update_of_ne differs]
      exact same path y short reached

/-- Only the writes through its own tables are seen in an address space. -/
theorem SameTree.stores {writes : List Store} (same : SameTree s s' dir)
    (keeps : (s.view kernelEnd p).Keeps roots) (tree : (dir, 4) ∈ roots)
    (trees : ∀ write ∈ writes, (write.pgdir, 4) ∈ roots) :
    SameTree (s.stores writes) (s'.stores (writes.filter (·.pgdir = dir))) dir := by
  induction writes generalizing s s' with
  | nil => exact same
  | cons write writes ih =>
      have first := trees write (List.mem_cons_self ..)
      have rest : ∀ later ∈ writes, (later.pgdir, 4) ∈ roots :=
        fun later member => trees later (List.mem_cons_of_mem _ member)
      have keeps' := Machine.store_keeps keeps first
      by_cases own : write.pgdir = dir
      · subst own
        rw [List.filter_cons_of_pos (by simp)]
        exact ih (same.store keeps tree) keeps' rest
      · rw [List.filter_cons_of_neg (by simpa using own)]
        exact ih (same.store_other keeps first tree (Ne.symm own)) keeps' rest

end Stores

/-! ## A clone -/

section Clone

variable {p : Pid} {s s' : Machine Pid}

/--
What the copy of an address space is.  It maps the same virtual pages, each to a page of its own
that was free, with the same bytes and permissions; the parent stays as it is, and of what is
later written each process finds only its own writes.
-/
structure Cloned (s s' : Machine Pid) (pgdir newPgdir : Nat) : Prop where
  copied : ∀ va, va < 2 ^ 48 → ∀ w, translate s.mem pgdir va = some w →
    ∃ w', translate s'.mem newPgdir va = some w' ∧
      w' &&& (PTE_USER ||| PTE_RO) = w &&& (PTE_USER ||| PTE_RO) ∧
        pageOf w' ∈ s.freeList ∧ pageOf w' ∉ s'.freeList ∧ ¬ InTree s' pgdir (pageOf w') ∧
          s'.mem (pageOf w') = s.mem (pageOf w)
  absent : ∀ va, va < 2 ^ 48 → translate s.mem pgdir va = none →
    translate s'.mem newPgdir va = none
  distinct : ∀ va va', va < 2 ^ 48 → va' < 2 ^ 48 → ∀ w w',
    translate s'.mem newPgdir va = some w → translate s'.mem newPgdir va' = some w' →
      pageOf w = pageOf w' → va / PGSIZE = va' / PGSIZE
  parent : (∀ x, InTree s pgdir x → s'.mem x = s.mem x) ∧
    ∀ va, translate s'.mem pgdir va = translate s.mem pgdir va
  separate : ∀ writes : List Store,
    (∀ write ∈ writes, write.pgdir = pgdir ∨ write.pgdir = newPgdir) →
      ∀ dir, dir = pgdir ∨ dir = newPgdir → ∀ va,
        byteOf (s'.stores writes).mem dir va =
          byteOf (s'.stores (writes.filter (·.pgdir = dir))).mem dir va

theorem translate_mapped (keeps : (s.view kernelEnd p).Keeps roots) (tree : (pgdir, 4) ∈ roots)
    (va : Nat) :
    (s.view kernelEnd p).mapped pgdir (va / PGSIZE) = (translate s.mem pgdir va).map pageOf := by
  rw [translate_eq keeps tree (by decide), valid_map_pageOf, Heap.mapped_pte]

/-- What the loop has copied is a clone. -/
theorem Cloning.cloned (sound : s.Sound kernelEnd)
    (keeps : (s.view kernelEnd p).Keeps roots) (tree : (pgdir, 4) ∈ roots)
    (contiguous : Contiguous (s.view kernelEnd p) pgdir k)
    (cloning : Cloning (s.view kernelEnd p) (s'.view kernelEnd p) roots pgdir newPgdir k) :
    Cloned s s' pgdir newPgdir := by
  have root : (newPgdir, 4) ∈ insert (newPgdir, 4) roots := Or.inl rfl
  have tree' : (pgdir, 4) ∈ insert (newPgdir, 4) roots := Or.inr tree
  have differs : pgdir ≠ newPgdir := by
    rintro rfl
    exact cloning.root (Forest.root_mem keeps tree)
  have tables : ∀ (path : List Nat) x, path.length ≤ 4 →
      (s.view kernelEnd p).links.follow pgdir path = some x →
        (s'.view kernelEnd p).page x = (s.view kernelEnd p).page x :=
    fun path x short found => cloning.same x (Forest.mem keeps pgdir 4 tree path x short found)
  have entries : ∀ n, (s'.view kernelEnd p).pte pgdir (leafPath n) =
      (s.view kernelEnd p).pte pgdir (leafPath n) :=
    fun n => Heap.pte_congr keeps tree (by decide)
      (fun path x short => tables path x (by omega)) walkPath_length _
  constructor
  · intro va low w found
    have leaf := translate_mapped keeps tree va
    rw [found, Option.map_some] at leaf
    have inside := (contiguous _ (page_lt low)).mp (by rw [leaf]; rfl)
    rw [translate_eq keeps tree (by decide), valid_eq_some] at found
    rcases cloning.copied _ inside with ⟨y, free, copied, contents⟩
    rw [found.2] at copied contents
    rcases Heap.mem_owned.mp (Forest.mem keeps pgdir 4 tree _ _ leafPath_length.le leaf) with
      ⟨page, original⟩
    have copy := contents.trans original
    have new : (s'.view kernelEnd p).mapped newPgdir (va / PGSIZE) = some y := by
      rw [Heap.mapped_pte, copied, target, if_pos present_cloneEntry, pageOf_cloneEntry]
    refine ⟨cloneEntry y w, ?_, permissions_cloneEntry, ?_⟩
    · rw [translate_eq cloning.keeps root (by decide), copied]
      exact valid_of_present present_cloneEntry
    rw [pageOf_cloneEntry]
    refine ⟨?_, (Machine.view_page_eq_some copy).2.1, ?_, ?_⟩
    · rw [Machine.mem_freeList_iff p sound]
      exact ⟨Heap.usable_of_page copy, free⟩
    · rintro ⟨path, short, reached⟩
      rw [Machine.follow_view cloning.keeps tree' short] at reached
      exact differs (Forest.once cloning.keeps pgdir 4 tree' newPgdir 4 root path _ y short
        leafPath_length.le reached new).1
    · rw [(Machine.view_page_eq_some copy).2.2, (Machine.view_page_eq_some original).2.2]
  · intro va low none
    have bare := translate_mapped keeps tree va
    rw [none, Option.map_none] at bare
    have outside : k ≤ va / PGSIZE := by
      by_contra inside
      have here := (contiguous _ (page_lt low)).mpr (not_le.mp inside)
      rw [bare] at here
      cases here
    rw [translate_eq cloning.keeps root (by decide)]
    exact cloning.rest _ (page_lt low) outside
  · intro va va' low low' w w' found found' same
    have leaf := translate_mapped cloning.keeps root va
    have leaf' := translate_mapped cloning.keeps root va'
    rw [found, Option.map_some, same] at leaf
    rw [found', Option.map_some] at leaf'
    have equal := Forest.once cloning.keeps newPgdir 4 root newPgdir 4 root _ _ _
      leafPath_length.le leafPath_length.le leaf leaf'
    exact leafPath_injective (page_lt low) (page_lt low') equal.2.2
  · constructor
    · rintro x ⟨path, short, found⟩
      rw [Machine.follow_view keeps tree short] at found
      rcases Heap.mem_owned.mp (Forest.mem keeps pgdir 4 tree path x short found) with ⟨page, here⟩
      have there := (tables path x short found).trans here
      rw [(Machine.view_page_eq_some here).2.2, (Machine.view_page_eq_some there).2.2]
    · intro va
      rw [translate_eq cloning.keeps tree' (by decide), translate_eq keeps tree (by decide),
        entries]
  · intro writes through dir one va
    have rooted : ∀ dir, dir = pgdir ∨ dir = newPgdir → (dir, 4) ∈ insert (newPgdir, 4) roots := by
      rintro dir (rfl | rfl)
      · exact tree'
      · exact root
    have same : SameTree s' s' dir := fun _ _ _ _ => rfl
    exact (same.stores cloning.keeps (rooted dir one)
      fun write member => rooted _ (through write member)).byteOf.symm

variable [DecidableEq Pid]

/-- A call of `copyuvm` that succeeds has cloned the address space. -/
theorem copyuvm_cloned (sound : s.Sound kernelEnd) (keeps : (s.view kernelEnd p).Keeps roots)
    (tree : (pgdir, 4) ∈ roots)
    (exactly : ∀ va, va < 2 ^ 48 →
      ((mappedPage s.mem pgdir va).isSome ↔ va < ROUNDUP sz PGSIZE))
    (done : machine.Completes p (copyuvm kernelEnd pgdir sz) s (some newPgdir) s') :
    Cloned s s' pgdir newPgdir := by
  rw [ROUNDUP_page, contiguous_iff keeps tree] at exactly
  have few := exactly.small keeps tree
  have small : pages sz ≤ PAGES := few.trans (by decide)
  have rule : (aloneRules kernelEnd p fun _ => True).wp (copyuvm kernelEnd pgdir sz)
      (s.view kernelEnd p) fun copied h' => ∀ newPgdir, copied = some newPgdir →
        Cloning (s.view kernelEnd p) h' roots pgdir newPgdir (pages sz) := by
    apply copyuvm_clones keeps (Set.empty_subset _) tree small
    · exact fun n below => (exactly n (by omega)).mpr below
    · exact fun _ => trivial
    · intro _ _ impossible
      cases impossible
    · rintro newPgdir h' cloning _ ⟨⟩
      exact cloning
  exact ((sound.of_completes done rule).2 newPgdir rfl).cloned sound keeps tree exactly

end Clone

/-! ## A process with two pages -/

/-- Sixteen free pages behind a kernel of one page. -/
def sixteenFree : Machine Unit :=
  { eightFree with freeList := [1, 2, 3, 4, 5, 6, 7, 8, 9, 10, 11, 12, 13, 14, 15, 16] }

/-- An empty address space. -/
def parentSpace : Nat × Machine Unit :=
  (machine.run () pgdirInit sixteenFree).get (by decide)

/-- The address space of two pages. -/
def twoPages : Nat × Machine Unit :=
  (machine.run () (uvmAlloc 1 parentSpace.1 0 (2 * PGSIZE)) parentSpace.2).get (by decide)

/-- A copy of it. -/
def childSpace : Option Nat × Machine Unit :=
  (machine.run () (copyuvm 1 parentSpace.1 (2 * PGSIZE)) twoPages.2).get (by decide +kernel)

theorem parentSpace_starts :
    machine.Completes () pgdirInit sixteenFree parentSpace.1 parentSpace.2 := by
  have first : machine.run () pgdirInit sixteenFree = some parentSpace :=
    (Option.some_get _).symm
  exact System.run_completes first

theorem twoPages_grows :
    machine.Completes () (uvmAlloc 1 parentSpace.1 0 (2 * PGSIZE)) parentSpace.2 twoPages.1
      twoPages.2 := by
  have second : machine.run () (uvmAlloc 1 parentSpace.1 0 (2 * PGSIZE)) parentSpace.2 =
      some twoPages :=
    (Option.some_get _).symm
  exact System.run_completes second

theorem parentSpace_built : Built 1 () parentSpace.2 [parentSpace.1] :=
  .pgdirInit (.start ⟨by decide, by decide⟩) parentSpace_starts

theorem twoPages_built : Built 1 () twoPages.2 [parentSpace.1] :=
  .uvmAlloc parentSpace_built (List.mem_singleton_self _) twoPages_grows

theorem parentSpace_empty : Contiguous (parentSpace.2.view 1 ()) parentSpace.1 (pages 0) := by
  have sound : sixteenFree.Sound 1 := ⟨by decide, by decide⟩
  have rule : (aloneRules 1 () fun _ => True).wp pgdirInit (sixteenFree.view 1 ())
      fun pgdir h => Span h pgdir 0 fun _ => true := by
    apply pgdirInit_keeps (Built.start sound).keeps.2 (Set.empty_subset _)
    · exact fun _ => trivial
    · intro pgdir usable new full keeps
      exact Span.empty Heap.take_page_same
  have span := (sound.of_completes parentSpace_starts rule).2
  exact span.contiguous parentSpace_built.keeps.2 ⟨List.mem_singleton_self _, rfl⟩ (by decide)

theorem twoPages_contiguous :
    Contiguous (twoPages.2.view 1 ()) parentSpace.1 (pages (2 * PGSIZE)) := by
  have keeps := parentSpace_built.keeps
  have rule : (aloneRules 1 () fun _ => True).wp (uvmAlloc 1 parentSpace.1 0 (2 * PGSIZE))
      (parentSpace.2.view 1 ()) fun value h =>
        value ≠ 0 → Contiguous h parentSpace.1 (pages (2 * PGSIZE)) := by
    apply uvmAlloc_map Nat.one_pos keeps.2 (Set.empty_subset _)
      ⟨List.mem_singleton_self _, rfl⟩ parentSpace_empty
    · exact fun _ zero => absurd rfl zero
    · intro _ small
      cases small
    · exact fun _ _ _ _ zero => absurd rfl zero
    · exact fun h' _ _ _ grown _ => grown.exactly
  exact (keeps.1.of_completes twoPages_grows rule).2 (by decide)

theorem twoPages_exactly (va : Nat) (low : va < 2 ^ 48) :
    (mappedPage twoPages.2.mem parentSpace.1 va).isSome ↔
      va < ROUNDUP (2 * PGSIZE) PGSIZE := by
  rw [ROUNDUP_page]
  exact (contiguous_iff twoPages_built.keeps.2 ⟨List.mem_singleton_self _, rfl⟩).mpr
    twoPages_contiguous va low

theorem childSpace_child : childSpace.1 = some 7 := by
  decide +kernel

theorem copyuvm_cloned_twoPages : Cloned twoPages.2 childSpace.2 parentSpace.1 7 := by
  have copied : machine.run () (copyuvm 1 parentSpace.1 (2 * PGSIZE)) twoPages.2 =
      some (some 7, childSpace.2) :=
    (Option.some_get _).symm.trans (congrArg some (Prod.ext childSpace_child rfl))
  exact copyuvm_cloned twoPages_built.keeps.1 twoPages_built.keeps.2
    ⟨List.mem_singleton_self _, rfl⟩ twoPages_exactly (System.run_completes copied)

end PiKernel.Vm
