import PiKernel.Vm.Mapping
import PiKernel.Vm.Span

/-!
# Growing and shrinking a contiguous address space

`uvm_alloc` maps new pages behind the last one, or takes back those it has mapped, and
`uvm_dealloc` takes pages away from the end.  Neither touches the pages that stay.
-/

namespace PiKernel.Vm

open PiKernel.Conc
open PiKernel.Conc.Prog (perform)

variable {kernelEnd : Nat} {Pid : Type} {R : Rules kernelEnd Pid}
  {h h' h'' : Heap kernelEnd} {roots : Set (Nat × Nat)}
  {pgdir x y t i j k n m fuel oldsz newsz : Nat} {page : Page} {path : List Nat}

/-! ## Pages that stay -/

/-- The number of pages of the 48-bit address space. -/
def PAGES : Nat := 2 ^ 36

/-- Pages on one way have the same number within the address space. -/
theorem leafPath_mod (same : leafPath n = leafPath m) : n % PAGES = m % PAGES := by
  simp only [leafPath, walkPath, PTX, PGSIZE, ENTRYSZ, List.cons_append, List.nil_append,
    List.cons.injEq, and_true] at same
  simp only [PAGES]
  omega

/-- The page with a number in an address space. -/
def Heap.mapped (h : Heap kernelEnd) (pgdir n : Nat) : Option Nat :=
  h.links.follow pgdir (leafPath n)

/-- The page with a number is the same, and has the same contents. -/
def Agree (h h' : Heap kernelEnd) (pgdir n : Nat) : Prop :=
  h'.mapped pgdir n = h.mapped pgdir n ∧
    ∀ y, h.mapped pgdir n = some y → h'.page y = h.page y

theorem Agree.refl : Agree h h pgdir n :=
  ⟨rfl, fun _ _ => rfl⟩

theorem Agree.trans (first : Agree h h' pgdir n) (second : Agree h' h'' pgdir n) :
    Agree h h'' pgdir n := by
  constructor
  · rw [second.1, first.1]
  · intro y found
    rw [second.2 y (first.1.trans found), first.2 y found]

/-- The way to a page stays where the tables on it do. -/
theorem Agree.of_tables
    (tables : ∀ (before : List Nat) z, before.length < 4 →
      h.links.follow pgdir before = some z → h'.links z = h.links z)
    (leaf : ∀ y, h.mapped pgdir n = some y → h'.page y = h.page y) : Agree h h' pgdir n :=
  ⟨Links.follow_congr tables leafPath_length.le, leaf⟩

/-- An entry that leads to the same page as before changes no page of the address space. -/
theorem Agree.reflag {w : Nat} {usable : Usable kernelEnd t} (keeps : h.Keeps roots)
    (tree : (pgdir, 4) ∈ roots) (found : h.links.follow pgdir path = some t)
    (short : path.length < 4) (here : h.page t = some page) (inside : i < ENTRYSZ)
    (fits : w < 2 ^ 64) (same : target w = children page i) :
    Agree h (h.put t (setWord page i w) usable) pgdir n := by
  apply Agree.of_tables
  · intro before z _ _
    by_cases table : z = t
    · subst table
      rw [Heap.links_of_page Heap.put_page_same, Heap.links_of_page here,
        children_setWord inside fits, same, Function.update_eq_self]
    · exact Heap.links_put_other table
  · intro y leaf
    apply Heap.put_page_other
    rintro rfl
    have equal := Forest.once keeps pgdir 4 tree pgdir 4 tree path (leafPath n) y short.le
      leafPath_length.le found leaf
    rw [equal.2.2, leafPath_length] at short
    omega

/-- Nothing has been mapped. -/
theorem Retabled.agree (retabled : Retabled h h' pgdir (h.links.follow pgdir))
    (keeps : h.Keeps roots) (tree : (pgdir, 4) ∈ roots) : Agree h h' pgdir n :=
  ⟨retabled.leaves _ leafPath_length,
    fun _ found => retabled.leaf_page keeps tree leafPath_length found⟩

/-- The other pages stay where one is mapped. -/
theorem Retabled.agree_update {entered : Option Nat}
    (retabled : Retabled h h' pgdir
      (Function.update (h.links.follow pgdir) (leafPath m) entered))
    (keeps : h.Keeps roots) (tree : (pgdir, 4) ∈ roots) (low : n < PAGES) (low' : m < PAGES)
    (other : n ≠ m) : Agree h h' pgdir n := by
  have differs : leafPath n ≠ leafPath m := fun same => other (leafPath_injective low low' same)
  constructor
  · rw [Heap.mapped, retabled.leaves _ leafPath_length, Function.update_of_ne differs]
    rfl
  · intro y found
    exact retabled.leaf_page keeps tree leafPath_length found

theorem Retabled.mapped_update {entered : Option Nat}
    (retabled : Retabled h h' pgdir
      (Function.update (h.links.follow pgdir) (leafPath m) entered)) :
    h'.mapped pgdir m = entered := by
  rw [Heap.mapped, retabled.leaves _ leafPath_length, Function.update_self]

/-- A page that no way leads to is given back. -/
theorem Agree.drop (keeps : h.Keeps (insert (x, 0) roots)) (tree : (pgdir, 4) ∈ roots) :
    Agree h (h.drop x) pgdir n := by
  have unreached : ∀ path : List Nat, path.length ≤ 4 → ∀ z,
      h.links.follow pgdir path = some z → z ∉ ({x} : Set Nat) := by
    rintro path short z found rfl
    cases (keeps.apart (Or.inl rfl) (Or.inr tree) short found).2
  constructor
  · exact Heap.lacks_drop.follow unreached leafPath_length.le
  · intro y found
    exact Heap.drop_page_other fun same =>
      unreached (leafPath n) leafPath_length.le y found same

/-! ## Prefixes -/

/-- The pages below `m` are mapped: those below `k` as in `h`, and new ones behind them. -/
structure Grown (h h' : Heap kernelEnd) (pgdir k m : Nat) : Prop where
  exactly : ∀ n, n < PAGES → ((h'.mapped pgdir n).isSome ↔ n < m)
  old : ∀ n, n < PAGES → n < k → Agree h h' pgdir n
  new : ∀ n, k ≤ n → n < m → ∃ y, h'.mapped pgdir n = some y ∧ h'.page y = some (filled 0)

/-- The pages of an address space are those below `k`. -/
def Contiguous (h : Heap kernelEnd) (pgdir k : Nat) : Prop :=
  ∀ n, n < PAGES → ((h.mapped pgdir n).isSome ↔ n < k)

theorem Grown.refl (contiguous : Contiguous h pgdir k) : Grown h h pgdir k k where
  exactly := contiguous
  old _ _ _ := .refl
  new n above below := by omega

/-- What agrees on all pages is grown as much. -/
theorem Grown.agree (grown : Grown h h' pgdir k m) (bound : m ≤ PAGES)
    (agree : ∀ n, n < PAGES → Agree h' h'' pgdir n) : Grown h h'' pgdir k m where
  exactly n low := by rw [(agree n low).1, grown.exactly n low]
  old n low below := (grown.old n low below).trans (agree n low)
  new n above below := by
    rcases grown.new n above below with ⟨y, found, zero⟩
    have low : n < PAGES := by omega
    exact ⟨y, (agree n low).1.trans found, ((agree n low).2 y found).trans zero⟩

/-- One more page. -/
theorem Grown.push (grown : Grown h h' pgdir k m) (bound : m < PAGES) (above : k ≤ m)
    (agree : ∀ n, n < PAGES → n ≠ m → Agree h' h'' pgdir n)
    (found : h''.mapped pgdir m = some y) (zero : h''.page y = some (filled 0)) :
    Grown h h'' pgdir k (m + 1) where
  exactly n low := by
    by_cases here : n = m
    · subst here
      simp [found]
    · rw [(agree n low here).1, grown.exactly n low]
      omega
  old n low below := (grown.old n low below).trans (agree n low (by omega))
  new n above' below := by
    by_cases here : n = m
    · subst here
      exact ⟨y, found, zero⟩
    · rcases grown.new n above' (by omega) with ⟨z, found', zero'⟩
      have same := agree n (by omega) here
      exact ⟨z, same.1.trans found', (same.2 z found').trans zero'⟩

/-! ## `uvm_dealloc` -/

/-- The page at `n` is freed and its entry cleared. -/
theorem release_map {post : Unit → Heap kernelEnd → Prop} (keeps : h.Keeps roots)
    (more : R.live ⊆ roots) (tree : (pgdir, 4) ∈ roots) (low : n < PAGES)
    (found : h.links.follow pgdir (walkPath (n * PGSIZE) 3 0) = some t)
    (here : h.page t = some page) (entered : children page (n % ENTRYSZ) = some y)
    (next : ∀ h', h'.Keeps roots → h'.mapped pgdir n = none →
      (∀ m, m < PAGES → m ≠ n → Agree h h' pgdir m) → post () h') :
    R.wp (do kfree kernelEnd y; perform (.setWord t (n % ENTRYSZ) 0)) h post := by
  apply release_keeps keeps more tree walkPath_length found here entered
  intro usable cut dropped
  have cleared : Retabled h (h.put t (setWord page (n % ENTRYSZ) 0) usable) pgdir
      (Function.update (h.links.follow pgdir) (leafPath n) none) :=
    .setEntry keeps tree found walkPath_length here (Nat.mod_lt _ (by decide)) (by norm_num)
  apply next _ dropped
  · rw [(Agree.drop cut tree).1, cleared.mapped_update]
  · intro m low' other
    exact (cleared.agree_update keeps tree low' low other).trans (.drop cut tree)

/-- The pages below `j` stay, those from `m` to `k` are still to be freed. -/
structure Shrinking (h h' : Heap kernelEnd) (pgdir j m k : Nat) : Prop where
  exactly : ∀ n, n < PAGES → ((h'.mapped pgdir n).isSome ↔ n < k ∧ (n < j ∨ m ≤ n))
  old : ∀ n, n < PAGES → n < j → Agree h h' pgdir n

/-- Where no page is left to be freed the loop may go on from anywhere. -/
theorem Shrinking.skip (shrinking : Shrinking h h' pgdir j m k) (low : m < PAGES)
    (absent : h'.mapped pgdir m = none) (further : m ≤ i) :
    Shrinking h h' pgdir j i k where
  exactly n inside := by
    have done := shrinking.exactly m low
    rw [absent] at done
    simp only [Option.isSome_none, Bool.false_eq_true, false_iff, not_and] at done
    have beyond : k ≤ m := by
      by_contra inside'
      exact done (by omega) (Or.inr le_rfl)
    rw [shrinking.exactly n inside]
    omega
  old := shrinking.old

/-- All pages from `j` on have been freed. -/
theorem Shrinking.finish (shrinking : Shrinking h h' pgdir j m k) (finished : k ≤ m) :
    Shrinking h h' pgdir j k k where
  exactly n inside := by
    rw [shrinking.exactly n inside]
    omega
  old := shrinking.old

/-- One more page has been freed. -/
theorem Shrinking.release (shrinking : Shrinking h h' pgdir j m k) (from_j : j ≤ m)
    (freed : h''.mapped pgdir m = none)
    (agree : ∀ n, n < PAGES → n ≠ m → Agree h' h'' pgdir n) :
    Shrinking h h'' pgdir j (m + 1) k where
  exactly n inside := by
    by_cases here : n = m
    · subst here
      rw [freed]
      simp only [Option.isSome_none, Bool.false_eq_true, false_iff]
      omega
    · rw [(agree n inside here).1, shrinking.exactly n inside]
      omega
  old n inside below := (shrinking.old n inside below).trans (agree n inside (by omega))

theorem ROUNDUP_block (m : Nat) : ∃ i, m < i ∧
    ROUNDUP (m * PGSIZE) BKSIZE + PGSIZE = i * PGSIZE := by
  refine ⟨ROUNDUP (m * PGSIZE) BKSIZE / PGSIZE + 1, ?_, ?_⟩
  · simp only [ROUNDUP, ROUNDDOWN, BKSIZE, PGSIZE]
    omega
  · simp only [ROUNDUP, ROUNDDOWN, BKSIZE, PGSIZE]
    omega

theorem uvmDeallocLoop_map {post : Unit → Heap kernelEnd → Prop} (noZero : 0 < kernelEnd)
    (keeps : h'.Keeps roots) (more : R.live ⊆ roots) (tree : (pgdir, 4) ∈ roots)
    (small : oldsz < UADDR_SZ) (below : k ≤ pages oldsz) (from_j : j ≤ m)
    (enough : pages oldsz ≤ m + fuel) (shrinking : Shrinking h h' pgdir j m k)
    (next : ∀ h'', h''.Keeps roots → Shrinking h h'' pgdir j k k → post () h'') :
    R.wp (uvmDeallocLoop kernelEnd pgdir oldsz fuel (m * PGSIZE)) h' post := by
  induction fuel generalizing h' m with
  | zero => exact R.ret (next h' keeps (shrinking.finish (by omega)))
  | succ fuel ih =>
      rw [uvmDeallocLoop]
      by_cases more_pages : m * PGSIZE < oldsz
      · rw [if_pos more_pages]
        rw [lt_pages] at more_pages
        have bound := pages_lt small
        have low : m < PAGES := by
          simp only [PAGES]
          omega
        have step : m * PGSIZE + PGSIZE = (m + 1) * PGSIZE := by
          rw [Nat.add_mul, Nat.one_mul]
        have index : PTX 3 (m * PGSIZE) = m % ENTRYSZ := PTX_page m
        apply R.bind
        apply pgdirWalk_find keeps tree
        cases found : h'.links.follow pgdir (walkPath (m * PGSIZE) 3 0) with
        | none =>
            have absent : h'.mapped pgdir m = none := by
              rw [Heap.mapped, leafPath, Links.follow_append, found]
              rfl
            rcases ROUNDUP_block m with ⟨i, further, start⟩
            change R.wp (uvmDeallocLoop kernelEnd pgdir oldsz fuel
              (ROUNDUP (m * PGSIZE) BKSIZE + PGSIZE)) h' post
            rw [start]
            exact ih keeps (by omega) (by omega) (shrinking.skip low absent further.le)
        | some t =>
            rcases Heap.mem_owned.mp
              (Forest.mem keeps pgdir 4 tree _ t (by rw [walkPath_length]; omega) found) with
              ⟨page, here⟩
            have leads : h'.mapped pgdir m = children page (m % ENTRYSZ) := by
              rw [Heap.mapped, leafPath, Links.follow_snoc found, Heap.links_of_page here]
            rw [Option.map_some, index]
            apply R.bind
            apply R.word here
            rw [step]
            cases entered : children page (m % ENTRYSZ) with
            | none =>
                rw [if_neg (by simp [children_eq_none entered])]
                exact ih keeps (by omega) (by omega)
                  (shrinking.skip low (leads.trans entered) (Nat.le_succ m))
            | some y =>
                rcases children_eq_some entered with ⟨present, page_y⟩
                have owned : y ∈ h'.owned :=
                  Forest.mem keeps pgdir 4 tree _ y leafPath_length.le (leads.trans entered)
                have usable := h'.usable y owned
                have positive : y ≠ 0 := by
                  have := usable.1
                  omega
                rw [if_pos present, page_y, if_neg positive, ← Prog.bind_assoc]
                apply R.bind
                apply release_map keeps more tree low found here entered
                intro h₁ keeps₁ freed agree
                exact ih keeps₁ (by omega) (by omega) (shrinking.release from_j freed agree)
      · rw [if_neg more_pages]
        rw [lt_pages] at more_pages
        exact R.ret (next h' keeps (shrinking.finish (by omega)))

/-- The pages from `newsz` on are taken away. -/
theorem uvmDealloc_map {post : Nat → Heap kernelEnd → Prop} (noZero : 0 < kernelEnd)
    (keeps : h.Keeps roots) (more : R.live ⊆ roots) (tree : (pgdir, 4) ∈ roots)
    (small : oldsz < UADDR_SZ) (smaller : newsz < oldsz) (below : k ≤ pages oldsz)
    (contiguous : Contiguous h pgdir k)
    (next : ∀ h', h'.Keeps roots →
      (∀ n, n < PAGES → ((h'.mapped pgdir n).isSome ↔ n < k ∧ n < pages newsz)) →
      (∀ n, n < PAGES → n < pages newsz → Agree h h' pgdir n) → post newsz h') :
    R.wp (uvmDealloc kernelEnd pgdir oldsz newsz) h post := by
  have start : Shrinking h h pgdir (pages newsz) (pages newsz) k := by
    constructor
    · intro n inside
      rw [contiguous n inside]
      omega
    · exact fun _ _ _ => .refl
  rw [uvmDealloc, if_neg (by omega), ROUNDUP_page]
  apply R.bind
  apply uvmDeallocLoop_map noZero keeps more tree small below le_rfl _ start
  · intro h' keeps' shrunk
    refine R.ret (next h' keeps' ?_ shrunk.old)
    intro n inside
    rw [shrunk.exactly n inside]
    omega
  · simp only [pages, PGSIZE]
    omega

/-! ## `uvm_alloc` -/

/-- A page that no way leads to is taken into the hands of the process. -/
theorem Agree.take {usable : Usable kernelEnd x} (keeps : h.Keeps roots)
    (tree : (pgdir, 4) ∈ roots) (new : h.page x = none) :
    Agree h (h.take x page usable) pgdir n :=
  (Retabled.take keeps tree new).agree keeps tree

/-- What the rollback of `uvm_alloc` leaves. -/
theorem Grown.rollback (grown : Grown h h' pgdir k m) (above : k ≤ m)
    (exactly : ∀ n, n < PAGES → ((h''.mapped pgdir n).isSome ↔ n < m ∧ n < k))
    (kept : ∀ n, n < PAGES → n < k → Agree h' h'' pgdir n) : Grown h h'' pgdir k k where
  exactly n low := by
    rw [exactly n low]
    omega
  old n low below := (grown.old n low below).trans (kept n low below)
  new n above below := by omega

theorem uvmAllocLoop_map {post : Bool → Heap kernelEnd → Prop} (noZero : 0 < kernelEnd)
    (keeps : h'.Keeps roots) (more : R.live ⊆ roots) (tree : (pgdir, 4) ∈ roots)
    (small : newsz < UADDR_SZ) (below : m ≤ pages newsz) (above : pages oldsz ≤ m)
    (enough : pages newsz ≤ m + fuel) (grown : Grown h h' pgdir (pages oldsz) m)
    (fail : ∀ h'', h''.Keeps roots → Grown h h'' pgdir (pages oldsz) (pages oldsz) →
      post false h'')
    (done : ∀ h'', h''.Keeps roots → Grown h h'' pgdir (pages oldsz) (pages newsz) →
      post true h'') :
    R.wp (uvmAllocLoop kernelEnd pgdir oldsz newsz fuel (m * PGSIZE)) h' post := by
  induction fuel generalizing h' m with
  | zero =>
      have all : m = pages newsz := by omega
      exact R.ret (done h' keeps (all ▸ grown))
  | succ fuel ih =>
      have bound := pages_lt small
      rw [uvmAllocLoop]
      by_cases next : m * PGSIZE < newsz
      · have smaller : oldsz < newsz := by
          have page_le : pages oldsz * PGSIZE ≤ m * PGSIZE := Nat.mul_le_mul_right _ above
          simp only [pages, PGSIZE] at page_le next
          omega
        rw [if_pos next]
        rw [lt_pages] at next
        have low : m < PAGES := by
          simp only [PAGES]
          omega
        have position : m * PGSIZE + PGSIZE = (m + 1) * PGSIZE := by
          rw [Nat.add_mul, Nat.one_mul]
        apply R.bind
        apply Rules.kalloc (keeps.mono more)
        · intro _
          apply R.bind
          apply uvmDealloc_map noZero keeps more tree small smaller below grown.exactly
          intro h'' keeps'' exactly kept
          exact R.ret (fail h'' keeps'' (grown.rollback above exactly kept))
        · intro mem usable new _
          let taken := h'.take mem (filled 0) usable
          have inHand : taken.Keeps (insert (mem, 0) roots) := keeps.take new
          have outside : (mem, 0) ∉ roots := keeps.not_root new
          have more' : R.live ⊆ insert (mem, 0) roots := more.trans (Set.subset_insert _ _)
          have grown' : Grown h taken pgdir (pages oldsz) m :=
            grown.agree low.le fun n _ => .take keeps tree new
          have unmapped : taken.mapped pgdir m = none := by
            rw [← Option.not_isSome_iff_eq_none, grown'.exactly m low]
            exact lt_irrefl m
          apply R.bind
          apply R.fill Heap.take_page_same
          · rw [Heap.take_put]
            exact inHand.mono more'
          · rw [Heap.take_put]
            apply R.bind
            apply mapRegion_map inHand outside more tree (by decide) unmapped
            · intro h₁ keeps₁ retabled
              have grown₁ : Grown h h₁ pgdir (pages oldsz) m :=
                grown'.agree low.le fun n _ => retabled.agree inHand (Or.inr tree)
              apply R.bind
              apply uvmDealloc_map noZero keeps₁ more' (Or.inr tree) small smaller below
                grown₁.exactly
              intro h₂ keeps₂ exactly kept
              have dropped := keeps₂.drop_root outside
              apply R.bind
              apply Rules.kfree (Forest.root_mem keeps₂ (Or.inl rfl)) (dropped.mono more)
              apply R.ret
              apply fail _ dropped
              apply (grown₁.rollback above exactly kept).agree _ fun n _ => .drop keeps₂ tree
              omega
            · intro h₁ keeps₁ retabled
              have zero : h₁.page mem = some (filled 0) := by
                rw [retabled.other mem (Forest.root_mem inHand (Or.inl rfl)), Heap.take_page_same]
                intro path short found
                cases (inHand.apart (Or.inl rfl) (Or.inr tree) (by omega) found).2
              rw [if_pos rfl, position]
              apply ih keeps₁ next (by omega) (by omega)
              exact grown'.push low above
                (fun n inside other => retabled.agree_update inHand (Or.inr tree) inside low other)
                retabled.mapped_update zero
      · rw [if_neg next]
        rw [lt_pages] at next
        have all : m = pages newsz := by omega
        exact R.ret (done h' keeps (all ▸ grown))

/-- New pages of zeros are mapped up to `newsz`, or the address space stays as it is. -/
theorem uvmAlloc_map {post : Nat → Heap kernelEnd → Prop} (noZero : 0 < kernelEnd)
    (keeps : h.Keeps roots) (more : R.live ⊆ roots) (tree : (pgdir, 4) ∈ roots)
    (contiguous : Contiguous h pgdir (pages oldsz))
    (tooLarge : UADDR_SZ ≤ newsz → post 0 h)
    (smaller : newsz < UADDR_SZ → newsz < oldsz → post oldsz h)
    (fail : ∀ h', newsz < UADDR_SZ → h'.Keeps roots →
      Grown h h' pgdir (pages oldsz) (pages oldsz) → post 0 h')
    (done : ∀ h', newsz < UADDR_SZ → oldsz ≤ newsz → h'.Keeps roots →
      Grown h h' pgdir (pages oldsz) (pages newsz) → post newsz h') :
    R.wp (uvmAlloc kernelEnd pgdir oldsz newsz) h post := by
  rw [uvmAlloc]
  by_cases large : newsz ≥ UADDR_SZ
  · rw [if_pos large]
    exact R.ret (tooLarge large)
  · rw [if_neg large]
    have small : newsz < UADDR_SZ := by omega
    by_cases less : newsz < oldsz
    · rw [if_pos less]
      exact R.ret (smaller small less)
    · rw [if_neg less, ROUNDUP_page]
      have mono : pages oldsz ≤ pages newsz := Nat.div_le_div_right (by omega)
      have enough : pages newsz ≤ pages oldsz + (newsz / PGSIZE + 1) := by
        simp only [pages, PGSIZE]
        omega
      apply R.bind
      apply uvmAllocLoop_map noZero keeps more tree small mono le_rfl enough (.refl contiguous)
      · intro h' keeps' grown
        exact R.ret (fail h' small keeps' grown)
      · intro h' keeps' grown
        exact R.ret (done h' small (by omega) keeps' grown)

/-- Where `uvm_alloc` succeeds the old pages stay. -/
theorem uvmAlloc_agree (noZero : 0 < kernelEnd) (keeps : h.Keeps roots)
    (more : R.live ⊆ roots) (tree : (pgdir, 4) ∈ roots)
    (contiguous : Contiguous h pgdir (pages oldsz)) :
    R.wp (uvmAlloc kernelEnd pgdir oldsz newsz) h fun value h' =>
      value ≠ 0 → ∀ n, n < PAGES → n < pages oldsz → Agree h h' pgdir n := by
  apply uvmAlloc_map noZero keeps more tree contiguous
  · exact fun _ zero => absurd rfl zero
  · exact fun _ _ _ _ _ _ => .refl
  · exact fun _ _ _ _ zero => absurd rfl zero
  · exact fun h' _ _ _ grown _ => grown.old

end PiKernel.Vm
