import PiKernel.Vm.Translation

/-!
# `uvm_dealloc` on any page table

Where the last table for an address is missing, `uvm_dealloc` goes on behind the first page of
the next table.  It visits all pages of its range but these, and unmaps what it visits.
-/

namespace PiKernel.Vm

open PiKernel.Conc
open PiKernel.Conc.Prog (perform)

variable {kernelEnd : Nat} {Pid : Type} {R : Rules kernelEnd Pid}
  {h h' : Heap kernelEnd} {roots : Set (Nat × Nat)} {visited visited' : Set Nat}
  {pgdir t y i m n k first last oldsz newsz fuel : Nat} {page : Page}

/-! ## The pages that are visited -/

/-- The loop jumps over the page: it is the first of its table, and the table before is missing. -/
def Heap.Skipped (h : Heap kernelEnd) (pgdir first n : Nat) : Prop :=
  first < n ∧ n % ENTRYSZ = 0 ∧ h.links.follow pgdir (walkPath ((n - 1) * PGSIZE) 3 0) = none

/-- The pages which the loop has visited when it is at `m`. -/
def Heap.visits (h : Heap kernelEnd) (pgdir first last m : Nat) : Set Nat :=
  {n | first ≤ n ∧ n < m ∧ n < last ∧ ¬ h.Skipped pgdir first n}

theorem Heap.mapped_absent (absent : h.links.follow pgdir (walkPath (m * PGSIZE) 3 0) = none)
    (same : n / ENTRYSZ = m / ENTRYSZ) : h.mapped pgdir n = none := by
  rw [Heap.mapped, leafPath, walkPath_block same, Links.follow_append, absent]
  rfl

/-- Where the loop goes on from a page without a last table. -/
theorem skip_block (m : Nat) : ∃ i, ROUNDUP (m * PGSIZE) BKSIZE + PGSIZE = i * PGSIZE ∧
    m < i ∧ i % ENTRYSZ = 1 ∧
      ∀ n, m ≤ n → n < i → n / ENTRYSZ = m / ENTRYSZ ∨
        m < n ∧ n % ENTRYSZ = 0 ∧ (n - 1) / ENTRYSZ = m / ENTRYSZ := by
  refine ⟨(m + 511) / 512 * 512 + 1, ?_, ?_, ?_, ?_⟩
  · simp only [ROUNDUP, ROUNDDOWN, BKSIZE, PGSIZE]
    omega
  · omega
  · simp only [ENTRYSZ]
    omega
  · intro n above below
    simp only [ENTRYSZ]
    omega

/-! ## The loop -/

/-- The entries of the visited pages are not valid, and the others are as before. -/
def Cleared (visited : Set Nat) (pte : List Nat → Nat) (path : List Nat) (w : Nat) : Prop :=
  (∀ n ∈ visited, path = leafPath n → present w = false) ∧
    ((∀ n ∈ visited, path ≠ leafPath n) → w = pte path)

/-- The visited pages have been unmapped and given back. -/
structure Unmapping (h h' : Heap kernelEnd) (pgdir : Nat) (visited : Set Nat) : Prop where
  space : Space h' pgdir (fun path => (h.links.follow pgdir path).isSome)
    (Cleared visited (h.pte pgdir))
  owned : ∀ y, y ∈ h'.owned ↔ y ∈ h.owned ∧ ∀ n ∈ visited, h.mapped pgdir n ≠ some y

namespace Unmapping

theorem start : Unmapping h h pgdir ∅ where
  space := by
    apply Space.self.weaken fun _ => Iff.rfl
    intro path w same
    exact ⟨fun n none => none.elim, fun _ => same⟩
  owned y := ⟨fun here => ⟨here, fun n none => none.elim⟩, And.left⟩

/-- Pages that are not mapped need no work. -/
theorem skip (unmapping : Unmapping h h' pgdir visited) (more : visited ⊆ visited')
    (absent : ∀ n ∈ visited', n ∉ visited → h.mapped pgdir n = none) :
    Unmapping h h' pgdir visited' where
  space := by
    apply unmapping.space.weaken fun _ => Iff.rfl
    rintro path w ⟨gone, kept⟩
    constructor
    · rintro n member rfl
      by_cases old : ∃ k ∈ visited, leafPath n = leafPath k
      · rcases old with ⟨k, before, same⟩
        exact gone k before same
      · push Not at old
        have none := absent n member fun before => old n before rfl
        rw [Heap.mapped_pte, ← kept old, ← valid_eq_none] at none
        by_contra here
        rw [valid_of_present (Bool.eq_true_of_not_eq_false here)] at none
        cases none
    · exact fun others => kept fun n before => others n (more before)
  owned y := by
    rw [unmapping.owned y]
    refine and_congr_right fun _ => ⟨fun others n member => ?_, fun others n before => ?_⟩
    · by_cases before : n ∈ visited
      · exact others n before
      · rw [absent n member before]
        exact (Option.some_ne_none y).symm
    · exact others n (more before)

/-- The way to a page stays the same. -/
theorem follow_walk (unmapping : Unmapping h h' pgdir visited) :
    h'.links.follow pgdir (walkPath (m * PGSIZE) 3 0) = none ↔
      h.links.follow pgdir (walkPath (m * PGSIZE) 3 0) = none := by
  have tables := unmapping.space.tables (walkPath (m * PGSIZE) 3 0) walkPath_length.le
  rw [← Option.not_isSome_iff_eq_none, ← Option.not_isSome_iff_eq_none, tables]

/-- A page that has not been visited has its entry. -/
theorem word_eq (unmapping : Unmapping h h' pgdir visited)
    (low : m < PAGES) (small : ∀ n ∈ visited, n < PAGES) (new : m ∉ visited)
    (found : h'.links.follow pgdir (walkPath (m * PGSIZE) 3 0) = some t)
    (here : h'.page t = some page) : word page (m % ENTRYSZ) = h.pte pgdir (leafPath m) := by
  have entry := unmapping.space.entries _ t page walkPath_length found here (m % ENTRYSZ)
    (Nat.mod_lt _ (by decide))
  apply entry.2
  rintro n before same
  have equal := leafPath_injective low (small n before) same
  exact new (equal ▸ before)

/-- A visited page that is mapped is freed. -/
theorem release {post : Unit → Heap kernelEnd → Prop} (unmapping : Unmapping h h' pgdir visited)
    (keeps : h'.Keeps roots) (more : R.live ⊆ roots) (tree : (pgdir, 4) ∈ roots)
    (low : m < PAGES) (small : ∀ n ∈ visited, n < PAGES) (new : m ∉ visited)
    (found : h'.links.follow pgdir (walkPath (m * PGSIZE) 3 0) = some t)
    (here : h'.page t = some page) (entered : children page (m % ENTRYSZ) = some y)
    (next : ∀ h'', h''.Keeps roots → Unmapping h h'' pgdir (insert m visited) → post () h'') :
    R.wp (do kfree kernelEnd y; perform (.setWord t (m % ENTRYSZ) 0)) h' post := by
  have inside : m % ENTRYSZ < ENTRYSZ := Nat.mod_lt _ (by decide)
  have leads : h.mapped pgdir m = some y := by
    rw [Heap.mapped_pte, ← unmapping.word_eq low small new found here]
    exact entered
  apply release_keeps keeps more tree walkPath_length found here entered
  intro usable cut dropped
  apply next _ dropped
  constructor
  · have cleared : Space (h'.put t (setWord page (m % ENTRYSZ) 0) usable) pgdir
        (fun path => (h.links.follow pgdir path).isSome)
        (Cleared (insert m visited) (h.pte pgdir)) := by
      apply unmapping.space.setEntry keeps tree (by decide) usable found walkPath_length here
        inside (by norm_num)
      · rintro path' j w _ _ other ⟨gone, kept⟩
        constructor
        · rintro n (rfl | before) same
          · exact absurd same other
          · exact gone n before same
        · exact fun others => kept fun n before => others n (Or.inr before)
      · constructor
        · exact fun _ _ _ => rfl
        · exact fun others => absurd rfl (others m (Or.inl rfl))
    apply cleared.congr
    intro path x short reached
    apply Heap.drop_page_other
    rintro rfl
    cases (cut.apart (Or.inl rfl) (Or.inr tree) (by omega) reached).2
  · intro z
    have owned : t ∈ h'.owned := Heap.mem_owned.mpr ⟨page, here⟩
    rw [Heap.owned_drop, Heap.owned_put owned, Set.mem_sdiff, unmapping.owned z, and_assoc]
    refine and_congr_right fun _ => ?_
    rw [Set.forall_mem_insert, leads, and_comm, Set.mem_singleton_iff]
    refine and_congr_left fun _ => ?_
    rw [ne_eq, Option.some.injEq, eq_comm]

end Unmapping

theorem Heap.visits_small (small : last ≤ PAGES) :
    ∀ n ∈ h.visits pgdir first last m, n < PAGES :=
  fun _ member => lt_of_lt_of_le member.2.2.1 small

theorem Heap.visits_self : m ∉ h.visits pgdir first last m :=
  fun member => lt_irrefl m member.2.1

/-- The next page is visited. -/
theorem Heap.visits_succ (above : first ≤ m) (below : m < last)
    (cursor : ¬ h.Skipped pgdir first m) :
    h.visits pgdir first last (m + 1) = insert m (h.visits pgdir first last m) := by
  ext n
  constructor
  · rintro ⟨from_first, up_to, inside, reached⟩
    rcases Nat.lt_succ_iff_lt_or_eq.mp up_to with before | rfl
    · exact Or.inr ⟨from_first, before, inside, reached⟩
    · exact Or.inl rfl
  · rintro (rfl | ⟨from_first, before, inside, reached⟩)
    · exact ⟨above, Nat.lt_succ_self _, below, cursor⟩
    · exact ⟨from_first, Nat.lt_succ_of_lt before, inside, reached⟩

theorem Heap.visits_last (above : last ≤ m) :
    h.visits pgdir first last m = h.visits pgdir first last last := by
  ext n
  constructor
  · exact fun member => ⟨member.1, member.2.2.1, member.2.2⟩
  · exact fun member => ⟨member.1, lt_of_lt_of_le member.2.2.1 above, member.2.2⟩

theorem uvmDeallocLoop_unmaps {post : Unit → Heap kernelEnd → Prop} (noZero : 0 < kernelEnd)
    (keeps : h'.Keeps roots) (more : R.live ⊆ roots) (tree : (pgdir, 4) ∈ roots)
    (small : pages oldsz ≤ PAGES) (above : first ≤ m) (enough : pages oldsz ≤ m + fuel)
    (cursor : ¬ h.Skipped pgdir first m)
    (unmapping : Unmapping h h' pgdir (h.visits pgdir first (pages oldsz) m))
    (next : ∀ h'', h''.Keeps roots →
      Unmapping h h'' pgdir (h.visits pgdir first (pages oldsz) (pages oldsz)) → post () h'') :
    R.wp (uvmDeallocLoop kernelEnd pgdir oldsz fuel (m * PGSIZE)) h' post := by
  induction fuel generalizing h' m with
  | zero =>
      rw [Heap.visits_last (by omega)] at unmapping
      exact R.ret (next h' keeps unmapping)
  | succ fuel ih =>
      rw [uvmDeallocLoop]
      by_cases inside : m * PGSIZE < oldsz
      · rw [if_pos inside]
        rw [lt_pages] at inside
        have low : m < PAGES := lt_of_lt_of_le inside small
        have step : m * PGSIZE + PGSIZE = (m + 1) * PGSIZE := by
          rw [Nat.add_mul, Nat.one_mul]
        have index : PTX 3 (m * PGSIZE) = m % ENTRYSZ := PTX_page m
        apply R.bind
        apply pgdirWalk_find keeps tree
        cases found : h'.links.follow pgdir (walkPath (m * PGSIZE) 3 0) with
        | none =>
            -- all pages up to the next cursor are in the missing table, but for the skipped one
            have absent := unmapping.follow_walk.mp found
            rcases skip_block m with ⟨i, start, further, position, block⟩
            change R.wp (uvmDeallocLoop kernelEnd pgdir oldsz fuel
              (ROUNDUP (m * PGSIZE) BKSIZE + PGSIZE)) h' post
            rw [start]
            apply ih keeps (by omega) (by omega)
            · rintro ⟨_, aligned, _⟩
              rw [position] at aligned
              cases aligned
            · apply unmapping.skip
              · exact fun n member => ⟨member.1, lt_trans member.2.1 further, member.2.2⟩
              · rintro n ⟨from_first, up_to, within, reached⟩ new
                have beyond : m ≤ n := by
                  by_contra before
                  exact new ⟨from_first, not_le.mp before, within, reached⟩
                rcases block n beyond up_to with same | ⟨after, aligned, previous⟩
                · exact Heap.mapped_absent absent same
                · refine absurd ⟨by omega, aligned, ?_⟩ reached
                  rw [walkPath_block previous]
                  exact absent
        | some t =>
            rcases Heap.mem_owned.mp
              (Forest.mem keeps pgdir 4 tree _ t (by rw [walkPath_length]; omega) found) with
              ⟨page, here⟩
            have small' : ∀ n ∈ h.visits pgdir first (pages oldsz) m, n < PAGES :=
              Heap.visits_small small
            have entry := unmapping.word_eq low small' Heap.visits_self found here
            have cursor' : ¬ h.Skipped pgdir first (m + 1) := by
              rintro ⟨_, _, absent⟩
              rw [Nat.add_sub_cancel, ← unmapping.follow_walk, found] at absent
              cases absent
            have visits := Heap.visits_succ above inside cursor
            rw [Option.map_some, index]
            apply R.bind
            apply R.word here
            rw [step]
            cases entered : children page (m % ENTRYSZ) with
            | none =>
                rw [if_neg (by simp [children_eq_none entered])]
                apply ih keeps (by omega) (by omega) cursor'
                rw [visits]
                apply unmapping.skip (Set.subset_insert _ _)
                rintro n (rfl | before) new
                · rw [Heap.mapped_pte, ← entry]
                  exact entered
                · exact absurd before new
            | some y =>
                rcases children_eq_some entered with ⟨present, page_y⟩
                have owned : y ∈ h'.owned := by
                  apply Forest.mem keeps pgdir 4 tree (leafPath m) y leafPath_length.le
                  rw [leafPath, Links.follow_snoc found, Heap.links_of_page here, entered]
                have usable := h'.usable y owned
                have positive : y ≠ 0 := by
                  have := usable.1
                  omega
                rw [if_pos present, page_y, if_neg positive, ← Prog.bind_assoc]
                apply R.bind
                apply unmapping.release keeps more tree low small' Heap.visits_self found here
                  entered
                intro h₁ keeps₁ unmapping₁
                rw [← visits] at unmapping₁
                exact ih keeps₁ (by omega) (by omega) cursor' unmapping₁
      · rw [if_neg inside]
        rw [lt_pages] at inside
        rw [Heap.visits_last (by omega)] at unmapping
        exact R.ret (next h' keeps unmapping)

/-- The pages that the loop does not jump over are unmapped. -/
theorem uvmDealloc_unmaps {post : Nat → Heap kernelEnd → Prop} (noZero : 0 < kernelEnd)
    (keeps : h.Keeps roots) (more : R.live ⊆ roots) (tree : (pgdir, 4) ∈ roots)
    (small : pages oldsz ≤ PAGES) (smaller : newsz < oldsz)
    (next : ∀ h', h'.Keeps roots →
      Unmapping h h' pgdir (h.visits pgdir (pages newsz) (pages oldsz) (pages oldsz)) →
      post newsz h') :
    R.wp (uvmDealloc kernelEnd pgdir oldsz newsz) h post := by
  have start : h.visits pgdir (pages newsz) (pages oldsz) (pages newsz) = ∅ := by
    ext n
    exact iff_of_false (fun member => absurd member.2.1 (not_lt.mpr member.1)) id
  rw [uvmDealloc, if_neg (by omega), ROUNDUP_page]
  apply R.bind
  apply uvmDeallocLoop_unmaps noZero keeps more tree small le_rfl
  · simp only [pages, PGSIZE]
    omega
  · exact fun skipped => lt_irrefl _ skipped.1
  · rw [start]
    exact .start
  · exact fun h' keeps' unmapping => R.ret (next h' keeps' unmapping)

/-! ## The range of a call -/

section Range

variable {p : Pid} {s s' : Machine Pid}

/-- A page of `[ROUNDUP(newsz, PGSIZE), oldsz)`. -/
def InRange (newsz oldsz n : Nat) : Prop :=
  ROUNDUP newsz PGSIZE ≤ n * PGSIZE ∧ n * PGSIZE < oldsz

instance (newsz oldsz n : Nat) : Decidable (InRange newsz oldsz n) :=
  inferInstanceAs (Decidable (_ ∧ _))

theorem inRange_iff : InRange newsz oldsz n ↔ pages newsz ≤ n ∧ n < pages oldsz := by
  rw [InRange, lt_pages, ROUNDUP_page]
  exact and_congr_left fun _ => Nat.mul_le_mul_right_iff (by decide)

/-- The pages that are mapped in the range. -/
def mappedRange (mem : Nat → Page) (pgdir newsz oldsz : Nat) : List Nat :=
  ((List.range (pages oldsz)).filter (InRange newsz oldsz)).filterMap fun n =>
    mappedPage mem pgdir (n * PGSIZE)

/--
No page of the range is mapped, those which were mapped are on the free list, each once, and
every other address translates as before.
-/
structure RangeUnmapped (s s' : Machine Pid) (pgdir newsz oldsz : Nat) : Prop where
  gone : ∀ n, InRange newsz oldsz n → translate s'.mem pgdir (n * PGSIZE) = none
  freed : s'.freeList.Perm (mappedRange s.mem pgdir newsz oldsz ++ s.freeList)
  kept : ∀ va, va < 2 ^ 48 → ¬ InRange newsz oldsz (va / PGSIZE) →
    translate s'.mem pgdir va = translate s.mem pgdir va

/--
Where the range goes on into a new last table with a mapped first page, the table before is there
as well.
-/
def NoneSkipped (s : Machine Pid) (pgdir newsz oldsz : Nat) : Prop :=
  ∀ n, InRange newsz oldsz n → InRange newsz oldsz (n + 1) → (n + 1) % ENTRYSZ = 0 →
    translate s.mem pgdir ((n + 1) * PGSIZE) ≠ none → HasTable s.mem pgdir (n * PGSIZE)

namespace Unmapping

variable {visited : Set Nat}

theorem pte_visited (unmapping : Unmapping h h' pgdir visited) (keeps : h'.Keeps roots)
    (tree : (pgdir, 4) ∈ roots) (member : n ∈ visited) :
    valid (h'.pte pgdir (leafPath n)) = none := by
  have inside : n % ENTRYSZ < ENTRYSZ := Nat.mod_lt _ (by decide)
  rcases unmapping.space.pte keeps tree (by decide) walkPath_length inside with
    ⟨_, zero⟩ | ⟨_, cleared⟩
  · rw [leafPath, zero, valid_zero]
  · exact valid_of_absent (cleared.1 n member rfl)

theorem pte_kept (unmapping : Unmapping h h' pgdir visited) (keeps : h'.Keeps roots)
    (tree : (pgdir, 4) ∈ roots) (small : ∀ k ∈ visited, k < PAGES) (low : n < PAGES)
    (new : n ∉ visited) : h'.pte pgdir (leafPath n) = h.pte pgdir (leafPath n) := by
  have inside : n % ENTRYSZ < ENTRYSZ := Nat.mod_lt _ (by decide)
  rcases unmapping.space.pte keeps tree (by decide) walkPath_length inside with
    ⟨missing, zero⟩ | ⟨_, cleared⟩
  · rw [leafPath, zero, Heap.pte_absent (Option.not_isSome_iff_eq_none.mp missing)]
  · apply cleared.2
    rintro k member same
    exact new (leafPath_injective low (small k member) same ▸ member)

end Unmapping

theorem UADDR_SZ_pages (limit : oldsz ≤ UADDR_SZ) : pages oldsz ≤ PAGES := by
  simp only [pages, PGSIZE, PAGES, UADDR_SZ] at limit ⊢
  omega

theorem translate_page (keeps : (s.view kernelEnd p).Keeps roots)
    (tree : (pgdir, 4) ∈ roots) :
    translate s.mem pgdir (n * PGSIZE) = valid ((s.view kernelEnd p).pte pgdir (leafPath n)) := by
  rw [translate_eq keeps tree (by decide), Nat.mul_div_cancel _ (by decide)]

/-- The pages that the loop jumps over, in terms of the machine. -/
theorem skipped_iff (keeps : (s.view kernelEnd p).Keeps roots) (tree : (pgdir, 4) ∈ roots) :
    (s.view kernelEnd p).Skipped pgdir (pages newsz) n ↔
      pages newsz < n ∧ n % ENTRYSZ = 0 ∧ ¬ HasTable s.mem pgdir ((n - 1) * PGSIZE) := by
  rw [hasTable_iff keeps tree (by decide), Option.not_isSome_iff_eq_none]
  rfl

theorem mem_mappedRange (keeps : (s.view kernelEnd p).Keeps roots) (tree : (pgdir, 4) ∈ roots) :
    y ∈ mappedRange s.mem pgdir newsz oldsz ↔
      ∃ n, InRange newsz oldsz n ∧ (s.view kernelEnd p).mapped pgdir n = some y := by
  simp only [mappedRange, List.mem_filterMap, List.mem_filter, List.mem_range, decide_eq_true_eq,
    mappedPage_eq keeps tree, Nat.mul_div_cancel _ (show 0 < PGSIZE by decide)]
  refine exists_congr fun n => and_congr_left fun _ => ?_
  rw [and_iff_right_iff_imp, inRange_iff]
  exact And.right

theorem mappedRange_nodup (keeps : (s.view kernelEnd p).Keeps roots)
    (tree : (pgdir, 4) ∈ roots) (limit : oldsz ≤ UADDR_SZ) :
    (mappedRange s.mem pgdir newsz oldsz).Nodup := by
  have nodup : ((List.range (pages oldsz)).filter (InRange newsz oldsz)).Nodup :=
    List.nodup_range.filter _
  rw [mappedRange, List.Nodup, List.pairwise_filterMap]
  apply nodup.imp_of_mem
  intro n m member member' differ y leaf z leaf' same
  subst same
  have low : ∀ {k}, k ∈ (List.range (pages oldsz)).filter (InRange newsz oldsz) → k < PAGES := by
    intro k within
    have below := List.mem_range.mp (List.mem_filter.mp within).1
    exact lt_of_lt_of_le below (UADDR_SZ_pages limit)
  rw [mappedPage_eq keeps tree, Nat.mul_div_cancel _ (by decide)] at leaf leaf'
  have equal := Forest.once keeps pgdir 4 tree pgdir 4 tree _ _ y leafPath_length.le
    leafPath_length.le leaf leaf'
  exact differ (leafPath_injective (low member) (low member') equal.2.2)

/-- The pages given back are those that were mapped in the range. -/
theorem freed_perm (sound : s.Sound kernelEnd) (sound' : s'.Sound kernelEnd)
    (keeps : (s.view kernelEnd p).Keeps roots) (tree : (pgdir, 4) ∈ roots)
    (limit : oldsz ≤ UADDR_SZ)
    (unmapping : Unmapping (s.view kernelEnd p) (s'.view kernelEnd p) pgdir
      ((s.view kernelEnd p).visits pgdir (pages newsz) (pages oldsz) (pages oldsz)))
    (reached : ∀ n, InRange newsz oldsz n → (s.view kernelEnd p).mapped pgdir n ≠ none →
      n ∈ (s.view kernelEnd p).visits pgdir (pages newsz) (pages oldsz) (pages oldsz)) :
    s'.freeList.Perm (mappedRange s.mem pgdir newsz oldsz ++ s.freeList) := by
  have owned : ∀ {n y}, (s.view kernelEnd p).mapped pgdir n = some y →
      y ∈ (s.view kernelEnd p).owned :=
    fun leaf => Forest.mem keeps pgdir 4 tree _ _ leafPath_length.le leaf
  have apart : ∀ y ∈ mappedRange s.mem pgdir newsz oldsz, ∀ x ∈ s.freeList, y ≠ x := by
    rintro y member x free rfl
    rcases (mem_mappedRange keeps tree).mp member with ⟨n, _, leaf⟩
    rcases Heap.mem_owned.mp (owned leaf) with ⟨page, here⟩
    exact (Machine.view_page_eq_some here).2.1 free
  have nodup : (mappedRange s.mem pgdir newsz oldsz ++ s.freeList).Nodup :=
    List.nodup_append.mpr ⟨mappedRange_nodup keeps tree limit, sound.nodup, apart⟩
  rw [List.perm_ext_iff_of_nodup sound'.nodup nodup]
  intro y
  have taken : ∀ {h : Heap kernelEnd}, h.page y = none ↔ y ∉ h.owned :=
    fun {h} => Option.not_isSome_iff_eq_none.symm
  rw [List.mem_append, Machine.mem_freeList_iff p sound', Machine.mem_freeList_iff p sound,
    taken, taken, unmapping.owned, mem_mappedRange keeps tree]
  constructor
  · rintro ⟨usable, gone⟩
    by_cases here : y ∈ (s.view kernelEnd p).owned
    · left
      by_contra nowhere
      refine gone ⟨here, fun n member leaf => nowhere ⟨n, ?_, leaf⟩⟩
      exact inRange_iff.mpr ⟨member.1, member.2.1⟩
    · exact Or.inr ⟨usable, here⟩
  · rintro (⟨n, within, leaf⟩ | ⟨usable, free⟩)
    · refine ⟨(s.view kernelEnd p).usable y (owned leaf), fun ⟨_, others⟩ => ?_⟩
      apply others n (reached n within _) leaf
      rw [leaf]
      exact Option.some_ne_none y
    · exact ⟨usable, fun here => free here.1⟩

variable [DecidableEq Pid]

/-- The call returns, and unmaps exactly its range. -/
def UnmapsRange (kernelEnd : Nat) (p : Pid) (s : Machine Pid) (pgdir oldsz newsz : Nat) : Prop :=
  ∃ s', machine.Completes p (uvmDealloc kernelEnd pgdir oldsz newsz) s newsz s' ∧
    RangeUnmapped s s' pgdir newsz oldsz

/-- What the call leaves. -/
theorem uvmDealloc_ends (noZero : 0 < kernelEnd) (sound : s.Sound kernelEnd)
    (keeps : (s.view kernelEnd p).Keeps roots) (tree : (pgdir, 4) ∈ roots)
    (smaller : newsz < oldsz) (limit : oldsz ≤ UADDR_SZ) :
    ∃ s', machine.Completes p (uvmDealloc kernelEnd pgdir oldsz newsz) s newsz s' ∧
      s'.Sound kernelEnd ∧ (s'.view kernelEnd p).Keeps roots ∧
      Unmapping (s.view kernelEnd p) (s'.view kernelEnd p) pgdir
        ((s.view kernelEnd p).visits pgdir (pages newsz) (pages oldsz) (pages oldsz)) := by
  have rule : (aloneRules kernelEnd p fun _ => False).wp
      (uvmDealloc kernelEnd pgdir oldsz newsz) (s.view kernelEnd p) fun value h' =>
        value = newsz ∧ h'.Keeps roots ∧ Unmapping (s.view kernelEnd p) h' pgdir
          ((s.view kernelEnd p).visits pgdir (pages newsz) (pages oldsz) (pages oldsz)) :=
    uvmDealloc_unmaps noZero keeps (Set.empty_subset _) tree (UADDR_SZ_pages limit) smaller
      fun h' keeps' unmapping => ⟨rfl, keeps', unmapping⟩
  rcases sound.completes rule with ⟨_, s', done, sound', rfl, keeps', unmapping⟩
  exact ⟨s', done, sound', keeps', unmapping⟩

/--
`uvm_dealloc` unmaps exactly its range if and only if no mapped page of it comes first in a last
table where the table before is missing.
-/
theorem uvmDealloc_unmapsRange_iff (noZero : 0 < kernelEnd) (sound : s.Sound kernelEnd)
    (keeps : (s.view kernelEnd p).Keeps roots) (tree : (pgdir, 4) ∈ roots)
    (smaller : newsz < oldsz) (limit : oldsz ≤ UADDR_SZ) :
    UnmapsRange kernelEnd p s pgdir oldsz newsz ↔ NoneSkipped s pgdir newsz oldsz := by
  rcases uvmDealloc_ends noZero sound keeps tree smaller limit with
    ⟨s', done, sound', keeps', unmapping⟩
  have small := UADDR_SZ_pages limit
  have low : ∀ {n}, InRange newsz oldsz n → n < PAGES :=
    fun within => lt_of_lt_of_le (inRange_iff.mp within).2 small
  have visits : ∀ n ∈ (s.view kernelEnd p).visits pgdir (pages newsz) (pages oldsz)
      (pages oldsz), n < PAGES :=
    Heap.visits_small small
  constructor
  · rintro ⟨s₁, done₁, unmapped⟩ n within within' aligned mapped
    rcases done.unique done₁ with ⟨_, rfl⟩
    by_contra missing
    have skipped : n + 1 ∉ (s.view kernelEnd p).visits pgdir (pages newsz) (pages oldsz)
        (pages oldsz) := by
      rintro ⟨_, _, _, reached⟩
      apply reached
      rw [skipped_iff keeps tree, Nat.add_sub_cancel]
      exact ⟨Nat.lt_succ_of_le (inRange_iff.mp within).1, aligned, missing⟩
    apply mapped
    rw [← unmapped.gone (n + 1) within', translate_page keeps tree, translate_page keeps' tree,
      unmapping.pte_kept keeps' tree visits (low within') skipped]
  · intro none
    -- what the loop jumps over is not mapped
    have reached : ∀ n, InRange newsz oldsz n → translate s.mem pgdir (n * PGSIZE) ≠ .none →
        n ∈ (s.view kernelEnd p).visits pgdir (pages newsz) (pages oldsz) (pages oldsz) := by
      intro n within mapped
      rcases inRange_iff.mp within with ⟨above, below⟩
      refine ⟨above, below, below, ?_⟩
      rw [skipped_iff keeps tree]
      rintro ⟨further, aligned, missing⟩
      obtain ⟨m, rfl⟩ := Nat.exists_eq_add_of_lt further
      exact missing (none _ (inRange_iff.mpr ⟨by omega, by omega⟩) within aligned mapped)
    refine ⟨s', done, ?_, ?_, ?_⟩
    · intro n within
      by_cases mapped : translate s.mem pgdir (n * PGSIZE) = .none
      · by_cases member : n ∈ (s.view kernelEnd p).visits pgdir (pages newsz) (pages oldsz)
          (pages oldsz)
        · rw [translate_page keeps' tree, unmapping.pte_visited keeps' tree member]
        · rw [translate_page keeps' tree, unmapping.pte_kept keeps' tree visits (low within) member,
            ← translate_page keeps tree, mapped]
      · rw [translate_page keeps' tree,
          unmapping.pte_visited keeps' tree (reached n within mapped)]
    · apply freed_perm sound sound' keeps tree limit unmapping
      intro n within leaf
      apply reached n within
      rw [translate_page keeps tree, ne_eq, valid_eq_none, ← Heap.mapped_pte]
      exact leaf
    · intro va bound outside
      have new : va / PGSIZE ∉ (s.view kernelEnd p).visits pgdir (pages newsz) (pages oldsz)
          (pages oldsz) :=
        fun member => outside (inRange_iff.mpr ⟨member.1, member.2.1⟩)
      rw [translate_eq keeps' tree (by decide), translate_eq keeps tree (by decide),
        unmapping.pte_kept keeps' tree visits (page_lt bound) new]

end Range

/-! ## A page table with a gap -/

/-- The second last table maps its first page, and there is no first last table. -/
def secondBlock : Nat × Machine Unit :=
  (machine.run () (uvmAlloc 1 emptySpace.1 BKSIZE (BKSIZE + PGSIZE)) emptySpace.2).get
    (by decide)

theorem secondBlock_built : Built 1 () secondBlock.2 [emptySpace.1] := by
  have sound : eightFree.Sound 1 := ⟨by decide, by decide⟩
  have first : machine.run () pgdirInit eightFree = some emptySpace :=
    (Option.some_get _).symm
  have second : machine.run () (uvmAlloc 1 emptySpace.1 BKSIZE (BKSIZE + PGSIZE)) emptySpace.2 =
      some secondBlock :=
    (Option.some_get _).symm
  exact .uvmAlloc (.pgdirInit (.start sound) (System.run_completes first))
    (List.mem_singleton_self _) (System.run_completes second)

theorem uvmDealloc_unmapsRange_iff_onePage :
    UnmapsRange 1 () onePage.2 emptySpace.1 PGSIZE 0 ↔
      NoneSkipped onePage.2 emptySpace.1 0 PGSIZE :=
  uvmDealloc_unmapsRange_iff (by decide) onePage_built.keeps.1 onePage_built.keeps.2
    ⟨List.mem_singleton_self _, rfl⟩ (by decide) (by decide)

/-- The page stays mapped when the address space shrinks to nothing. -/
theorem not_uvmDealloc_unmapsRange_secondBlock :
    Built 1 () secondBlock.2 [emptySpace.1] ∧
      ¬ UnmapsRange 1 () secondBlock.2 emptySpace.1 (BKSIZE + PGSIZE) 0 := by
  refine ⟨secondBlock_built, ?_⟩
  rintro ⟨s', done, unmapped⟩
  have gone : translate s'.mem emptySpace.1 (512 * PGSIZE) = none :=
    unmapped.gone 512 (by decide)
  have still : (machine.run () (uvmDealloc 1 emptySpace.1 (BKSIZE + PGSIZE) 0)
      secondBlock.2).all (fun result =>
        translate result.2.mem emptySpace.1 (512 * PGSIZE) ≠ none) = true := by
    decide
  rw [done.run_eq, Option.all_some, decide_eq_true_eq] at still
  exact still gone

end PiKernel.Vm
