import PiKernel.Vm.Translation

/-!
# `map_region` on any page table

`map_region` enters pages one after the other.  The walk to a page may create tables, which are
new and empty; the entries of all other pages stay as they are.

Only the tables need to be a tree: what is mapped may be any physical memory.
-/

namespace PiKernel.Vm

open PiKernel.Conc
open PiKernel.Conc.Prog (perform)

variable {kernelEnd : Nat} {Pid : Type} {R : Rules kernelEnd Pid}
  {h h' h'' : Heap kernelEnd} {roots : Set (Nat × Nat)}
  {pgdir t x y i j w n m va height level levels : Nat} {page : Page} {path path' way : List Nat}

/-! ## New tables -/

/-- Tables on a way have been created, and nothing is mapped there. -/
structure Tabled (h h' : Heap kernelEnd) (pgdir : Nat) (way : List Nat) : Prop where
  owned : ∀ y, y ∈ h.owned → y ∈ h'.owned
  old : ∀ (path : List Nat) y, path.length ≤ 3 → h.links.follow pgdir path = some y →
    h'.links.follow pgdir path = some y
  new : ∀ (path : List Nat) y, path.length ≤ 3 → h'.links.follow pgdir path = some y →
    h.links.follow pgdir path = some y ∨ y ∉ h.owned ∧ path <+: way
  pte : ∀ (path : List Nat) j, path.length = 3 → j < ENTRYSZ →
    h'.pte pgdir (path ++ [j]) = h.pte pgdir (path ++ [j])

namespace Tabled

theorem refl : Tabled h h pgdir way where
  owned _ here := here
  old _ _ _ found := found
  new _ _ _ found := Or.inl found
  pte _ _ _ _ := rfl

theorem trans (first : Tabled h h' pgdir way) (second : Tabled h' h'' pgdir way) :
    Tabled h h'' pgdir way where
  owned y here := second.owned y (first.owned y here)
  old path y short found := second.old path y short (first.old path y short found)
  new path y short found := by
    rcases second.new path y short found with before | ⟨fresh, on⟩
    · exact first.new path y short before
    · exact Or.inr ⟨fun here => fresh (first.owned y here), on⟩
  pte path j three inside := (second.pte path j three inside).trans (first.pte path j three inside)

/-- A new table is empty. -/
theorem hang (usable : Usable kernelEnd x) (usable' : Usable kernelEnd y)
    (keeps : h.Keeps roots) (tree : (pgdir, height) ∈ roots) (tall : 3 ≤ height)
    (found : h.links.follow pgdir path = some x) (short : path.length < 3)
    (here : h.page x = some page) (absent : children page i = none) (new : h.page y = none)
    (inside : i < ENTRYSZ) (on : path ++ [i] <+: way)
    (hung : (h.hang x i y page usable usable').Keeps roots) :
    Tabled h (h.hang x i y page usable usable') pgdir way := by
  have ways : ∀ (path' : List Nat) z, path'.length ≤ 3 →
      ((h.hang x i y page usable usable').links.follow pgdir path' = some z ↔
        h.links.follow pgdir path' = some z ∨ path' = path ++ [i] ∧ z = y) :=
    fun path' z bound =>
      keeps.follow_hang_iff tree found (by omega) here absent new inside (by omega)
  have missing : h.links.follow pgdir (path ++ [i]) = none := by
    rw [Links.follow_snoc found, Heap.links_of_page here, absent]
  have owned : x ∈ h.owned := Heap.mem_owned.mpr ⟨page, here⟩
  constructor
  · intro z old
    rw [Heap.hang, Heap.owned_put, Heap.owned_take]
    · exact Or.inr old
    · rw [Heap.owned_take]
      exact Or.inr owned
  · exact fun path' z bound old => (ways path' z bound).mpr (Or.inl old)
  · intro path' z bound reached
    rcases (ways path' z bound).mp reached with before | ⟨rfl, rfl⟩
    · exact Or.inl before
    · refine Or.inr ⟨?_, on⟩
      intro owned'
      rcases Heap.mem_owned.mp owned' with ⟨page', there⟩
      rw [new] at there
      cases there
  · intro path' j three inside'
    have space : Space (h.hang x i y page usable usable') pgdir
        (fun path' => (h.links.follow pgdir path').isSome ∨ path' = path ++ [i])
        (fun path' w => w = h.pte pgdir path') := by
      apply Space.self.hang keeps tree tall usable usable' found short here absent new inside
      exact fun _ j _ => (Heap.pte_absent missing).symm
    rcases space.pte hung tree tall three inside' with ⟨none, zero⟩ | ⟨_, same⟩
    · rw [zero, Heap.pte_absent]
      exact Option.not_isSome_iff_eq_none.mp fun table => none (Or.inl table)
    · exact same

end Tabled

/-- The walk creates the tables that are missing on its way. -/
theorem pgdirWalkLoop_tabled {post : Option (Nat × Nat) → Heap kernelEnd → Prop}
    (keeps : h.Keeps roots) (more : R.live ⊆ roots) (tree : (pgdir, height) ∈ roots)
    (tall : 3 ≤ height) (found : h.links.follow pgdir path = some x)
    (depth : path.length + levels = 3)
    (fail : ∀ h', h'.Keeps roots → Tabled h h' pgdir (path ++ walkPath va levels level) →
      h'.supply = none ∨ h'.supply = some 0 → post none h')
    (done : ∀ h' t, h'.Keeps roots → Tabled h h' pgdir (path ++ walkPath va levels level) →
      h'.links.follow pgdir (path ++ walkPath va levels level) = some t →
      post (some (t, PTX (level + levels) va)) h') :
    R.wp (pgdirWalkLoop va true levels level x) h post := by
  induction levels generalizing h x level path with
  | zero =>
      apply R.ret
      apply done h x keeps .refl
      rw [walkPath, List.append_nil, found]
  | succ levels ih =>
      rcases Heap.mem_owned.mp (Forest.mem keeps pgdir height tree path x (by omega) found) with
        ⟨page, here⟩
      have deeper : (path ++ [PTX level va]).length + levels = 3 := by
        rw [List.length_append, List.length_singleton]
        omega
      have split : path ++ walkPath va (levels + 1) level =
          path ++ [PTX level va] ++ walkPath va levels (level + 1) := by
        rw [walkPath, List.append_assoc, List.singleton_append]
      have last : level + (levels + 1) = level + 1 + levels := by omega
      rw [split] at fail done
      rw [last] at done
      cases linked : children page (PTX level va) with
      | some y =>
          apply pgdirWalkLoop_hit here linked
          have found' : h.links.follow pgdir (path ++ [PTX level va]) = some y := by
            rw [Links.follow_snoc found, Heap.links_of_page here, linked]
          exact ih keeps found' deeper fail done
      | none =>
          apply pgdirWalkLoop_grow keeps more tree found
            (by omega : path.length + 1 + (height - (path.length + 1)) = height) here linked
          · exact fail h keeps .refl
          · intro y usable new _ hung
            have step : Tabled h (h.hang x (PTX level va) y page (Heap.usable_of_page here) usable)
                pgdir (path ++ [PTX level va] ++ walkPath va levels (level + 1)) :=
              .hang _ usable keeps tree tall found (by omega) here linked new (PTX_lt level va)
                (List.prefix_append _ _) hung
            apply ih hung (keeps.follow_hang _ usable tree found (by omega) new (PTX_lt _ _)) deeper
            · exact fun h' keeps' later => fail h' keeps' (step.trans later)
            · exact fun h' t keeps' later => done h' t keeps' (step.trans later)

/-! ## The loop -/

/-- The entry of page `k` of a region. -/
def regionEntry (x perm k : Nat) : Nat :=
  entry (x + k) (pageFlags perm) % 2 ^ 64

/-- The pages from `first` to `n` have been entered, with tables for no others up to `last`. -/
structure Entering (h h' : Heap kernelEnd) (pgdir first last n : Nat) (pte : Nat → Nat) :
    Prop where
  owned : ∀ y, y ∈ h.owned → y ∈ h'.owned
  new : ∀ (path : List Nat) y, path.length ≤ 3 → h'.links.follow pgdir path = some y →
    h.links.follow pgdir path = some y ∨
      y ∉ h.owned ∧ ∃ m, first ≤ m ∧ m ≤ last ∧ path <+: walkPath (m * PGSIZE) 3 0
  entered : ∀ m, first ≤ m → m < n → h'.pte pgdir (leafPath m) = pte m
  kept : ∀ m, m < PAGES → ¬ (first ≤ m ∧ m < n) →
    h'.pte pgdir (leafPath m) = h.pte pgdir (leafPath m)

namespace Entering

variable {first last : Nat} {pte : Nat → Nat}

theorem start : Entering h h pgdir first last first pte where
  owned _ here := here
  new _ _ _ found := Or.inl found
  entered _ above below := absurd below (not_lt.mpr above)
  kept _ _ _ := rfl

/-- The walk to a page of the region enters nothing. -/
theorem walk (entering : Entering h h' pgdir first last n pte)
    (tabled : Tabled h' h'' pgdir (walkPath (m * PGSIZE) 3 0)) (above : first ≤ m)
    (below : m ≤ last) : Entering h h'' pgdir first last n pte where
  owned y here := tabled.owned y (entering.owned y here)
  new path y short found := by
    rcases tabled.new path y short found with before | ⟨fresh, on⟩
    · exact entering.new path y short before
    · exact Or.inr ⟨fun here => fresh (entering.owned y here), m, above, below, on⟩
  entered k above' below' := by
    rw [leafPath, tabled.pte _ _ walkPath_length (Nat.mod_lt _ (by decide))]
    exact entering.entered k above' below'
  kept k low outside := by
    rw [leafPath, tabled.pte _ _ walkPath_length (Nat.mod_lt _ (by decide))]
    exact entering.kept k low outside

/-- The next page is entered. -/
theorem enter {usable : Usable kernelEnd t} (entering : Entering h h' pgdir first last n pte)
    (keeps : h'.Keeps roots) (tree : (pgdir, height) ∈ roots) (tall : 3 ≤ height)
    (found : h'.links.follow pgdir (walkPath (n * PGSIZE) 3 0) = some t)
    (here : h'.page t = some page) (above : first ≤ n) (low : n < PAGES)
    (value : w % 2 ^ 64 = pte n) :
    Entering h (h'.put t (setWord page (n % ENTRYSZ) w) usable) pgdir first last (n + 1) pte := by
  have inside : n % ENTRYSZ < ENTRYSZ := Nat.mod_lt _ (by decide)
  have set : ∀ m, (h'.put t (setWord page (n % ENTRYSZ) w) usable).pte pgdir (leafPath m) =
      Function.update (h'.pte pgdir) (leafPath n) (w % 2 ^ 64) (leafPath m) :=
    fun m => Heap.pte_setWord keeps tree tall found walkPath_length here inside walkPath_length
  constructor
  · intro y old
    rw [Heap.owned_put (Heap.mem_owned.mpr ⟨page, here⟩)]
    exact entering.owned y old
  · intro path y short reached
    rw [keeps.follow_put_short tree (by rw [walkPath_length]; exact tall) found
      (by rw [walkPath_length]; exact short)] at reached
    exact entering.new path y short reached
  · intro m above' below
    rw [set]
    by_cases same : m = n
    · rw [same, Function.update_self, value]
    · have differs : leafPath m ≠ leafPath n :=
        fun equal => same (leafPath_injective (by simp only [PAGES] at low; omega) low equal)
      rw [Function.update_of_ne differs]
      exact entering.entered m above' (by omega)
  · intro m low' outside
    rw [set]
    by_cases same : leafPath m = leafPath n
    · have equal := leafPath_injective low' low same
      exact absurd ⟨by omega, by omega⟩ outside
    · rw [Function.update_of_ne same]
      exact entering.kept m low' (by omega)

end Entering

theorem mapRegionLoop_enters {post : Bool → Heap kernelEnd → Prop} {first last perm k : Nat}
    (keeps : h'.Keeps roots) (more : R.live ⊆ roots) (tree : (pgdir, 3) ∈ roots)
    (small : last < PAGES) (above : first ≤ n) (count : n + k = last + 1)
    (free : ∀ m, first ≤ m → m ≤ last → valid (h.pte pgdir (leafPath m)) = none)
    (entering : Entering h h' pgdir first last n fun m => regionEntry x perm (m - first))
    (fail : ∀ h'' m, h''.Keeps roots → m ≤ last →
      (Entering h h'' pgdir first last m fun m => regionEntry x perm (m - first)) →
      h''.supply = none ∨ h''.supply = some 0 → post false h'')
    (done : ∀ h'', h''.Keeps roots →
      (Entering h h'' pgdir first last (last + 1) fun m => regionEntry x perm (m - first)) →
      post true h'') :
    R.wp (mapRegionLoop pgdir perm k (n * PGSIZE) (x + (n - first))) h' post := by
  induction k generalizing h' n with
  | zero =>
      have all : n = last + 1 := count
      exact R.ret (done h' keeps (all ▸ entering))
  | succ k ih =>
      have below : n ≤ last := by omega
      have step : n * PGSIZE + PGSIZE = (n + 1) * PGSIZE := by
        rw [Nat.add_mul, Nat.one_mul]
      have next : x + (n - first) + 1 = x + (n + 1 - first) := by omega
      have index : PTX (0 + 3) (n * PGSIZE) = n % ENTRYSZ := PTX_page n
      have inside : n % ENTRYSZ < ENTRYSZ := Nat.mod_lt _ (by decide)
      rw [mapRegionLoop]
      apply R.bind
      apply pgdirWalkLoop_tabled keeps more tree le_rfl Links.follow_nil rfl
      · intro h'' keeps' tabled empty
        exact R.ret (fail h'' n keeps' below (entering.walk tabled above below) empty)
      · intro h'' t keeps' tabled found
        have walked := entering.walk tabled above below
        rcases Heap.mem_owned.mp
          (Forest.mem keeps' pgdir 3 tree _ t (by rw [List.nil_append, walkPath_length]) found) with
          ⟨page, here⟩
        have absent : present (word page (n % ENTRYSZ)) = false := by
          have same : word page (n % ENTRYSZ) = h.pte pgdir (leafPath n) := by
            rw [← walked.kept n (by omega) (by omega)]
            exact (Heap.pte_snoc found here).symm
          have none := free n above below
          rw [← same] at none
          by_contra here
          rw [valid_of_present (Bool.eq_true_of_not_eq_false here)] at none
          cases none
        have kept : (h''.put t (Vm.setWord page (n % ENTRYSZ)
            (entry (x + (n - first)) (pageFlags perm))) (Heap.usable_of_page here)).Keeps roots :=
          keeps'.rewrite_leaf tree walkPath_length found
        rw [index]
        apply R.bind
        apply R.word here
        rw [if_neg (by simp [absent])]
        apply R.bind
        apply R.setWord here
        · exact kept.mono more
        · rw [step, next]
          apply ih kept (by omega) (by omega)
          exact walked.enter keeps' tree le_rfl found here above (by omega) rfl

/-! ## A region -/

variable {size pa perm : Nat}

/-- A page of `[ROUNDDOWN(va, PGSIZE), va + size)`. -/
def InRegion (va size n : Nat) : Prop :=
  ROUNDDOWN va PGSIZE ≤ n * PGSIZE ∧ n * PGSIZE < va + size

instance (va size n : Nat) : Decidable (InRegion va size n) :=
  inferInstanceAs (Decidable (_ ∧ _))

theorem inRegion_iff (positive : 0 < size) :
    InRegion va size n ↔ va / PGSIZE ≤ n ∧ n ≤ (va + size - 1) / PGSIZE := by
  simp only [InRegion, ROUNDDOWN, PGSIZE]
  omega

theorem mapRegion_enters {post : Bool → Heap kernelEnd → Prop} (keeps : h.Keeps roots)
    (more : R.live ⊆ roots) (tree : (pgdir, 3) ∈ roots) (positive : 0 < size)
    (bound : va + size ≤ 2 ^ 48)
    (free : ∀ n, InRegion va size n → valid (h.pte pgdir (leafPath n)) = none)
    (fail : ∀ h' m, h'.Keeps roots → m ≤ (va + size - 1) / PGSIZE →
      (Entering h h' pgdir (va / PGSIZE) ((va + size - 1) / PGSIZE) m fun n =>
        regionEntry x perm (n - va / PGSIZE)) →
      h'.supply = none ∨ h'.supply = some 0 → post false h')
    (done : ∀ h', h'.Keeps roots →
      (Entering h h' pgdir (va / PGSIZE) ((va + size - 1) / PGSIZE)
        ((va + size - 1) / PGSIZE + 1) fun n => regionEntry x perm (n - va / PGSIZE)) →
      post true h') :
    R.wp (mapRegion pgdir va size x perm) h post := by
  have first : ROUNDDOWN va PGSIZE = va / PGSIZE * PGSIZE := by
    simp only [ROUNDDOWN, PGSIZE]
    omega
  have count : (ROUNDDOWN (va + size - 1) PGSIZE - ROUNDDOWN va PGSIZE) / PGSIZE =
      (va + size - 1) / PGSIZE - va / PGSIZE := by
    simp only [ROUNDDOWN, PGSIZE]
    omega
  have small : (va + size - 1) / PGSIZE < PAGES := by
    simp only [PGSIZE, PAGES]
    omega
  have order : va / PGSIZE ≤ (va + size - 1) / PGSIZE := Nat.div_le_div_right (by omega)
  have start : x = x + (va / PGSIZE - va / PGSIZE) := by omega
  simp only [mapRegion]
  rw [count, first, start]
  apply mapRegionLoop_enters keeps more tree small le_rfl (by omega) _ .start
  · exact fail
  · exact done
  · exact fun n above below => free n ((inRegion_iff positive).mpr ⟨above, below⟩)

/-! ## What is meant -/

section Machine

variable {p : Pid} {s s' : Machine Pid} {done : Bool}

/--
What `map_region` leaves.  The pages of the region translate to the given pages, with the given
permissions, and all other addresses as before; the tables that it has added are taken from the
free list and lead to pages of the region only.  It fails only without free pages.
-/
structure RegionMapped (s s' : Machine Pid) (pgdir va size pa perm : Nat) (done : Bool) :
    Prop where
  mapped : done = true → ∀ a, InRegion va size (a / PGSIZE) →
    ∃ w, translate s'.mem pgdir a = some w ∧ w % PGSIZE = pageFlags perm ∧
      ROUNDDOWN w PGSIZE =
        (ROUNDDOWN pa PGSIZE + (a / PGSIZE * PGSIZE - ROUNDDOWN va PGSIZE)) % 2 ^ 64
  failed : done = false → s'.freeList = []
  outside : ∀ a, a < 2 ^ 48 → ¬ InRegion va size (a / PGSIZE) →
    translate s'.mem pgdir a = translate s.mem pgdir a
  tables : ∀ (path : List Nat) y, path.length ≤ 3 → (links s.mem).follow pgdir path = none →
    (links s'.mem).follow pgdir path = some y → y ∈ s.freeList ∧ y ∉ s'.freeList ∧
      ∀ i, i < ENTRYSZ → present (word (s'.mem y) i) = true →
        ∃ n, InRegion va size n ∧ path ++ [i] <+: leafPath n

theorem regionEntry_addr {k : Nat} (low : perm < PGSIZE) :
    regionEntry (pageOf pa) perm k % PGSIZE = pageFlags perm ∧
      ROUNDDOWN (regionEntry (pageOf pa) perm k) PGSIZE =
        (ROUNDDOWN pa PGSIZE + k * PGSIZE) % 2 ^ 64 := by
  have flags := pageFlags_lt low
  simp only [regionEntry, entry, pageOf, ROUNDDOWN]
  generalize pageFlags perm = f at flags
  simp only [PGSIZE] at flags ⊢
  omega

theorem present_regionEntry {k : Nat} (low : perm < PGSIZE) :
    present (regionEntry (pageOf pa) perm k) = true := by
  have flags : regionEntry (pageOf pa) perm k % 2 ^ 12 = pageFlags perm := (regionEntry_addr low).1
  have bit := Nat.testBit_mod_two_pow (regionEntry (pageOf pa) perm k) 12 0
  rw [flags] at bit
  have odd : (pageFlags perm).testBit 0 = true := by simp [pageFlags, PTE_P]
  rw [odd, decide_eq_true (by norm_num : 0 < 12), Bool.true_and] at bit
  exact bit.symm

/-- A table that has been added leads to pages of the region only. -/
theorem Entering.added {first last : Nat} {pte : Nat → Nat} (small : last < PAGES)
    (entering : Entering h h' pgdir first last m pte) (cut : m ≤ last + 1)
    (short : path.length ≤ 3) (missing : h.links.follow pgdir path = none)
    (found : h'.links.follow pgdir path = some y) (here : h'.page y = some page)
    (inside : i < ENTRYSZ) (entry : present (word page i) = true) :
    ∃ n, first ≤ n ∧ n ≤ last ∧ path ++ [i] <+: leafPath n := by
  rcases Nat.lt_or_ge path.length 3 with inner | bottom
  · -- a table of an upper level
    have child : h'.links.follow pgdir (path ++ [i]) = some (pageOf (word page i)) := by
      rw [Links.follow_snoc found, Heap.links_of_page here]
      exact if_pos entry
    have length : (path ++ [i]).length ≤ 3 := by
      rw [List.length_append, List.length_singleton]
      exact inner
    rcases entering.new _ _ length child with before | ⟨_, n, above, below, on⟩
    · rw [Links.follow_append, missing] at before
      cases before
    · exact ⟨n, above, below, on.trans (List.prefix_append _ _)⟩
  · -- a last table
    rcases entering.new path y short found with before | ⟨_, k, above, below, on⟩
    · rw [missing] at before
      cases before
    have three : path.length = 3 := Nat.le_antisymm short bottom
    have way : path = walkPath (k * PGSIZE) 3 0 := by
      apply on.eq_of_length
      rw [three, walkPath_length]
    let n := k / ENTRYSZ * ENTRYSZ + i
    have block : n / ENTRYSZ = k / ENTRYSZ := by
      simp only [n, ENTRYSZ] at inside ⊢
      omega
    have index : n % ENTRYSZ = i := by
      simp only [n, ENTRYSZ] at inside ⊢
      omega
    have leaf : leafPath n = path ++ [i] := by
      rw [leafPath, walkPath_block block, index, way]
    have low : n < PAGES := by
      simp only [n, ENTRYSZ, PAGES] at inside small ⊢
      omega
    by_cases entered : first ≤ n ∧ n < m
    · exact ⟨n, entered.1, by omega, by rw [leaf]⟩
    · have kept := entering.kept n low entered
      rw [leaf, Heap.pte_snoc found here, Heap.pte_absent missing] at kept
      rw [kept] at entry
      cases entry

/-- What the loop has entered is what is meant. -/
theorem Entering.regionMapped (sound : s.Sound kernelEnd)
    (keeps : (s.view kernelEnd p).Keeps roots) (keeps' : (s'.view kernelEnd p).Keeps roots)
    (tree : (pgdir, 3) ∈ roots) (positive : 0 < size) (bound : va + size ≤ 2 ^ 48)
    (low : perm < PGSIZE) (cut : m ≤ (va + size - 1) / PGSIZE + 1)
    (all : done = true → m = (va + size - 1) / PGSIZE + 1)
    (failed : done = false → s'.freeList = [])
    (entering : Entering (s.view kernelEnd p) (s'.view kernelEnd p) pgdir (va / PGSIZE)
      ((va + size - 1) / PGSIZE) m fun n => regionEntry (pageOf pa) perm (n - va / PGSIZE)) :
    RegionMapped s s' pgdir va size pa perm done := by
  have small : (va + size - 1) / PGSIZE < PAGES := by
    simp only [PGSIZE, PAGES]
    omega
  constructor
  · intro whole a region
    rcases (inRegion_iff positive).mp region with ⟨above, below⟩
    have offset : a / PGSIZE * PGSIZE - ROUNDDOWN va PGSIZE =
        (a / PGSIZE - va / PGSIZE) * PGSIZE := by
      rw [Nat.sub_mul]
      congr 1
      simp only [ROUNDDOWN, PGSIZE]
      omega
    have entered := entering.entered (a / PGSIZE) above (by rw [all whole]; omega)
    refine ⟨regionEntry (pageOf pa) perm (a / PGSIZE - va / PGSIZE), ?_, ?_⟩
    · rw [translate_eq keeps' tree le_rfl, entered]
      exact valid_of_present (present_regionEntry low)
    · rw [offset]
      exact regionEntry_addr low
  · exact failed
  · intro a inside outside
    rw [translate_eq keeps' tree le_rfl, translate_eq keeps tree le_rfl,
      entering.kept _ (page_lt inside)]
    rintro ⟨above, below⟩
    exact outside ((inRegion_iff positive).mpr ⟨above, by omega⟩)
  · intro path y short missing found
    rw [Machine.follow_view keeps tree short] at missing
    rw [Machine.follow_view keeps' tree short] at found
    have owned := Forest.mem keeps' pgdir 3 tree path y short found
    rcases Heap.mem_owned.mp owned with ⟨page, here⟩
    rcases Machine.view_page_eq_some here with ⟨usable, taken, contents⟩
    refine ⟨?_, taken, ?_⟩
    · rw [Machine.mem_freeList_iff p sound]
      refine ⟨usable, ?_⟩
      rcases entering.new path y short found with before | ⟨fresh, _⟩
      · rw [missing] at before
        cases before
      · exact Option.not_isSome_iff_eq_none.mp fresh
    · intro i inside entry
      rw [contents] at entry
      rcases entering.added small cut short missing found here inside entry with
        ⟨n, above, below, on⟩
      exact ⟨n, (inRegion_iff positive).mpr ⟨above, below⟩, on⟩

variable [DecidableEq Pid]

/-- The call returns, and adds exactly its mappings. -/
def MapsRegion (p : Pid) (s : Machine Pid) (pgdir va size pa perm : Nat) : Prop :=
  ∃ done s', machine.Completes p (mapRegion pgdir va size (pageOf pa) perm) s done s' ∧
    RegionMapped s s' pgdir va size pa perm done

/--
In the 48-bit address space `map_region` adds exactly the mappings of its region, and it fails only
when there are no free pages.
-/
theorem mapRegion_mapsRegion (sound : s.Sound kernelEnd)
    (keeps : (s.view kernelEnd p).Keeps roots) (tree : (pgdir, 3) ∈ roots)
    (positive : 0 < size) (bound : va + size ≤ 2 ^ 48) (low : perm < PGSIZE)
    (free : ∀ n, InRegion va size n → translate s.mem pgdir (n * PGSIZE) = none) :
    MapsRegion p s pgdir va size pa perm := by
  have rule : (aloneRules kernelEnd p fun _ => False).wp
      (mapRegion pgdir va size (pageOf pa) perm) (s.view kernelEnd p) fun done h' =>
        h'.Keeps roots ∧ (done = false → h'.supply = none ∨ h'.supply = some 0) ∧
          ∃ m, m ≤ (va + size - 1) / PGSIZE + 1 ∧
            (done = true → m = (va + size - 1) / PGSIZE + 1) ∧
            Entering (s.view kernelEnd p) h' pgdir (va / PGSIZE) ((va + size - 1) / PGSIZE) m
              fun n => regionEntry (pageOf pa) perm (n - va / PGSIZE) := by
    apply mapRegion_enters keeps (Set.empty_subset _) tree positive bound
    · intro n region
      rw [← free n region, translate_eq keeps tree le_rfl, Nat.mul_div_cancel _ (by decide)]
    · intro h' m keeps' below entering empty
      exact ⟨keeps', fun _ => empty, m, by omega, (fun impossible => by cases impossible), entering⟩
    · intro h' keeps' entering
      exact ⟨keeps', (fun impossible => by cases impossible), _, le_rfl, fun _ => rfl, entering⟩
  rcases sound.completes rule with
    ⟨done, s', completes, sound', keeps', failed, m, cut, all, entering⟩
  refine ⟨done, s', completes,
    entering.regionMapped sound keeps keeps' tree positive bound low cut all ?_⟩
  intro fails
  rcases failed fails with none | zero
  · cases none
  · exact List.length_eq_zero_iff.mp (Option.some.inj zero)

end Machine

/-! ## Beyond the address space -/

theorem emptySpace_built : Built 1 () emptySpace.2 [emptySpace.1] := by
  have sound : eightFree.Sound 1 := ⟨by decide, by decide⟩
  have first : machine.run () pgdirInit eightFree = some emptySpace :=
    (Option.some_get _).symm
  exact .pgdirInit (.start sound) (System.run_completes first)

theorem emptySpace_bare (va : Nat) : translate emptySpace.2.mem emptySpace.1 va = none := by
  rw [translate, walkPath, Links.follow_cons, emptySpace_links, Option.bind_none,
    Option.bind_none]

theorem emptySpace_tables :
    (emptySpace.2.view 1 ()).Keeps (insert (emptySpace.1, 3) (trees [])) := by
  have keeps := emptySpace_built.keeps.2
  have none : ∀ height, (emptySpace.1, height) ∉ trees [] := by
    rintro height ⟨impossible, _⟩
    cases impossible
  rw [trees_cons] at keeps
  exact Forest.sub keeps (none 4) Links.follow_nil (by decide)

/-- Three pages at the end of the address space, the first one from its middle on. -/
theorem mapRegion_mapsRegion_last :
    MapsRegion () emptySpace.2 emptySpace.1 (2 ^ 48 - 10240) 10240 PHYSTOP PTE_USER :=
  mapRegion_mapsRegion emptySpace_built.keeps.1 emptySpace_tables (Or.inl rfl) (by decide)
    (by decide) (by decide) fun n _ => emptySpace_bare (n * PGSIZE)

/-- Addresses are taken for ones of 48 bits, and permissions for bits of the page. -/
theorem not_mapRegion_mapsRegion :
    (Built 1 () emptySpace.2 [emptySpace.1] ∧
        ∀ va, translate emptySpace.2.mem emptySpace.1 va = none) ∧
      ¬ MapsRegion () emptySpace.2 emptySpace.1 (2 ^ 48 - PGSIZE) (2 * PGSIZE) PHYSTOP 0 ∧
        ¬ MapsRegion () emptySpace.2 emptySpace.1 0 PGSIZE PHYSTOP PGSIZE := by
  refine ⟨⟨emptySpace_built, emptySpace_bare⟩, ?_, ?_⟩
  · rintro ⟨done, s', completes, mapped⟩
    have unchanged : translate s'.mem emptySpace.1 0 = none := by
      rw [mapped.outside 0 (by decide) (by simp [InRegion, ROUNDDOWN, PGSIZE]), emptySpace_bare]
    have entered : (machine.run () (mapRegion emptySpace.1 (2 ^ 48 - PGSIZE) (2 * PGSIZE)
        (pageOf PHYSTOP) 0) emptySpace.2).all (fun result =>
          translate result.2.mem emptySpace.1 0 ≠ none) = true := by
      decide +kernel
    rw [completes.run_eq, Option.all_some, decide_eq_true_eq] at entered
    exact entered unchanged
  · rintro ⟨done, s', completes, mapped⟩
    have entered : (machine.run () (mapRegion emptySpace.1 0 PGSIZE (pageOf PHYSTOP) PGSIZE)
        emptySpace.2).all (fun result => result.1 = true ∧
          translate result.2.mem emptySpace.1 0 =
            some (entry (pageOf PHYSTOP + 1) (pageFlags 0))) = true := by
      decide
    rw [completes.run_eq, Option.all_some, decide_eq_true_eq] at entered
    rcases entered with ⟨rfl, found⟩
    rcases mapped.mapped rfl 0 (by decide) with ⟨w, here, _, page⟩
    rw [found] at here
    rw [← Option.some.inj here] at page
    exact absurd page (by decide)

end PiKernel.Vm
