import PiKernel.Vm.Growth

/-!
# Filling an address space

`uvm_load`, `clearpteu` and `copyout` on a span: which of their walks find a table,
and which page they write.
-/

namespace PiKernel.Vm

open PiKernel.Conc
open PiKernel.Conc.Prog (perform)

variable {kernelEnd : Nat} {Pid : Type} {R : Rules kernelEnd Pid}
  {h h' : Heap kernelEnd} {roots : Set (Nat × Nat)} {shown : Nat → Bool}
  {x y t i k n w pgdir va fuel : Nat} {page : Page}

/-! ## Walks -/

/-- The way to the table for a page below `UADDR_SZ`. -/
def tablePath (n : Nat) : List Nat := [0, 0, n / ENTRYSZ]

/-- The way to a page. -/
def pagePath (n : Nat) : List Nat := tablePath n ++ [n % ENTRYSZ]

theorem walkPath_va (low : va < 2 ^ 30) : walkPath va 3 0 = tablePath (va / PGSIZE) := by
  simp only [walkPath, tablePath, PTX, PGSIZE, ENTRYSZ, List.cons.injEq, and_true]
  omega

theorem PTX_va : PTX 3 va = va / PGSIZE % ENTRYSZ := rfl

/-- The table for a page, if the span covers one near it. -/
theorem Span.table (span : Span h pgdir k shown) :
    (h.links.follow pgdir (tablePath n)).isSome ↔ n / ENTRYSZ * ENTRYSZ < k := by
  rw [tablePath, span.tables _ (by simp)]
  simp [Covers]

/-- The entry for a page below `UADDR_SZ`. -/
theorem Span.entry (span : Span h pgdir k shown) (keeps : h.Keeps roots)
    (tree : (pgdir, 4) ∈ roots) (found : h.links.follow pgdir (tablePath n) = some t) :
    ∃ page, h.page t = some page ∧
      if n < k then
        ∃ y, children page (n % ENTRYSZ) = some y ∧
          h.links.follow pgdir (pagePath n) = some y ∧
          user (word page (n % ENTRYSZ)) = shown n
      else
        word page (n % ENTRYSZ) = 0 := by
  rcases Heap.mem_owned.mp
    (Forest.mem keeps pgdir 4 tree _ t (by simp [tablePath]) found) with ⟨page, here⟩
  have entry := span.entries _ t page rfl found here (n % ENTRYSZ) (Nat.mod_lt _ (by decide))
  have mapped := entry rfl rfl
  rw [Nat.div_add_mod' n ENTRYSZ] at mapped
  refine ⟨page, here, ?_⟩
  by_cases below : n < k
  · rw [if_pos below] at mapped ⊢
    have linked : children page (n % ENTRYSZ) = some (pageOf (word page (n % ENTRYSZ))) :=
      if_pos mapped.1
    refine ⟨_, linked, ?_, mapped.2⟩
    rw [pagePath, Links.follow_snoc found, Heap.links_of_page here, linked]
  · rw [if_neg below] at mapped ⊢
    exact mapped

theorem pagePath_eq (low : n < 2 ^ 18) : pagePath n = leafPath n := by
  rw [pagePath, leafPath, walkPath_page low]
  rfl

/-- The pages of a span are those below `k`. -/
theorem Span.contiguous (span : Span h pgdir k shown) (keeps : h.Keeps roots)
    (tree : (pgdir, 4) ∈ roots) (small : k ≤ 2 ^ 16) : Contiguous h pgdir k := by
  intro n low
  by_cases near : n < 2 ^ 18
  · rw [Heap.mapped, ← pagePath_eq near]
    cases found : h.links.follow pgdir (tablePath n) with
    | none =>
        have outside := span.table.not.mp (Option.not_isSome_iff_eq_none.mpr found)
        rw [pagePath, Links.follow_append, found]
        simp only [Option.bind_none, Option.isSome_none, Bool.false_eq_true, false_iff]
        simp only [ENTRYSZ] at outside
        omega
    | some t =>
        rcases span.entry keeps tree found with ⟨page, here, entry⟩
        by_cases below : n < k
        · rw [if_pos below] at entry
          rcases entry with ⟨y, _, found', _⟩
          simp [found', below]
        · rw [if_neg below] at entry
          have absent : children page (n % ENTRYSZ) = none := by
            rw [children, entry, target_zero]
          rw [pagePath, Links.follow_snoc found, Heap.links_of_page here, absent]
          simp [below]
  · have missing : h.links.follow pgdir (walkPath (n * PGSIZE) 3 0) = none := by
      rw [← Option.not_isSome_iff_eq_none, span.tables _ (by rw [walkPath_length])]
      simp only [walkPath, PTX, Covers, PGSIZE, ENTRYSZ]
      simp only [PAGES] at low
      omega
    rw [Heap.mapped, leafPath, Links.follow_append, missing]
    simp only [Option.bind_none, Option.isSome_none, Bool.false_eq_true, false_iff]
    omega

/-- A page of a process is no table. -/
theorem Span.put (span : Span h pgdir k shown) (keeps : h.Keeps roots)
    (tree : (pgdir, 4) ∈ roots) (usable : Usable kernelEnd y)
    (found : h.links.follow pgdir (pagePath n) = some y) :
    Span (h.put y page usable) pgdir k shown := by
  apply span.congr
  intro path x short found'
  apply Heap.put_page_other
  rintro rfl
  have equal := Forest.once keeps pgdir 4 tree pgdir 4 tree path (pagePath n) x (by omega)
    (by simp [pagePath, tablePath]) found' found
  rw [equal.2.2] at short
  simp [pagePath, tablePath] at short

/-! ## `uvm_load` -/

/-- A piece of the file is written into a page which the span has. -/
theorem write_span {post : Unit → Heap kernelEnd → Prop} {off : Nat} {bytes : List UInt8}
    (keeps : h.Keeps roots) (more : R.live ⊆ roots) (tree : (pgdir, 4) ∈ roots)
    (span : Span h pgdir k shown) (found : h.links.follow pgdir (tablePath n) = some t)
    (here : h.page t = some page) (inside : bytes ≠ [] → n < k)
    (next : ∀ h', h'.Keeps roots → h'.supply = h.supply → Span h' pgdir k shown → post () h') :
    R.wp (perform (.write (pageOf (word page (n % ENTRYSZ))) off bytes)) h post := by
  by_cases nothing : bytes = []
  · subst nothing
    exact R.writeNothing (next h keeps rfl span)
  · rcases span.entry keeps tree found with ⟨page', here', entry⟩
    rw [here] at here'
    cases here'
    rw [if_pos (inside nothing)] at entry
    rcases entry with ⟨y, linked, reached, _⟩
    rw [(children_eq_some linked).2]
    have four : (pagePath n).length = 4 := by simp [pagePath, tablePath]
    rcases Heap.mem_owned.mp (Forest.mem keeps pgdir 4 tree _ y four.le reached) with
      ⟨contents, owned⟩
    let written := h.put y (Bytes.splice contents off bytes) (Heap.usable_of_page owned)
    have ordered : written.Keeps roots := keeps.rewrite_leaf tree four reached
    exact R.write owned (ordered.mono more)
      (next written ordered rfl (span.put keeps tree _ reached))

theorem readi_eq_none {ip : Fs.File} {off count : Nat} (none : readi ip off count = .none) :
    ip.size.toNat < off ∨ 2 ^ 64 ≤ off + count := by
  rw [readi, Option.map_eq_none_iff, Fs.Files.readCount] at none
  split at none
  · assumption
  · cases none

theorem readi_length {ip : Fs.File} {off count : Nat} {bytes : List UInt8}
    (read : readi ip off count = some bytes) :
    off ≤ ip.size.toNat ∧ bytes.length = min count (ip.size.toNat - off) := by
  rw [readi, Option.map_eq_some_iff] at read
  rcases read with ⟨count', counted, rfl⟩
  rw [Fs.Files.readCount] at counted
  split at counted
  · cases counted
  · cases counted
    rw [Fs.File.slice, List.length_map, List.length_range]
    constructor
    · omega
    · split <;> omega

/-- A walk below `UADDR_SZ`. -/
theorem pgdirWalk_table {post : Option (Nat × Nat) → Heap kernelEnd → Prop}
    (keeps : h.Keeps roots) (tree : (pgdir, 4) ∈ roots) (low : va < 2 ^ 30)
    (next : post ((h.links.follow pgdir (tablePath (va / PGSIZE))).map
      fun t => (t, va / PGSIZE % ENTRYSZ)) h) :
    R.wp (pgdirWalk pgdir va false) h post := by
  apply pgdirWalk_find keeps tree
  rw [walkPath_va low]
  exact next

/-- The tables for the pages of a span are there. -/
theorem Span.some_table (span : Span h pgdir k shown) (below : n < k) :
    ∃ t, h.links.follow pgdir (tablePath n) = some t :=
  Option.isSome_iff_exists.mp (span.table.mpr (lt_of_le_of_lt (Nat.div_mul_le_self n _) below))

variable {ip : Fs.File} {addr offset sz : Nat}

theorem uvmLoadLoop_span {post : Bool → Heap kernelEnd → Prop} (keeps : h.Keeps roots)
    (more : R.live ⊆ roots) (tree : (pgdir, 4) ∈ roots) (span : Span h pgdir k shown)
    (small : k ≤ 2 ^ 16) (covered : addr + sz ≤ k * PGSIZE) (enough : sz ≤ i + fuel * PGSIZE)
    (next : ∀ h', h'.Keeps roots → h'.supply = h.supply → Span h' pgdir k shown →
      post (decide (sz ≤ i ∨ offset + sz ≤ ip.size.toNat)) h') :
    R.wp (uvmLoadLoop pgdir addr ip offset sz fuel i) h post := by
  induction fuel generalizing h i with
  | zero =>
      rw [Nat.zero_mul, Nat.add_zero] at enough
      rw [decide_eq_true (Or.inl enough)] at next
      exact R.ret (next h keeps rfl span)
  | succ fuel ih =>
      rw [uvmLoadLoop]
      by_cases finished : i < sz
      · rw [if_pos finished]
        have inside : (addr + i) / PGSIZE < k := by
          simp only [PGSIZE] at covered ⊢
          omega
        have low : addr + i < 2 ^ 30 := by
          simp only [PGSIZE] at covered
          omega
        rcases span.some_table inside with ⟨t, found⟩
        rcases span.entry keeps tree found with ⟨page, here, _⟩
        apply R.bind
        apply pgdirWalk_table keeps tree low
        rw [found]
        apply R.bind
        apply R.word here
        simp only
        cases read : readi ip (offset + i) (min (sz - i) PGSIZE) with
        | none =>
            apply R.ret
            have cutOff := readi_eq_none read
            have size := ip.size.toNat_lt
            rw [decide_eq_false (by simp only [PGSIZE] at cutOff; omega)] at next
            exact next h keeps rfl span
        | some bytes =>
            have length := readi_length read
            apply R.bind
            apply write_span keeps more tree span found here fun _ => inside
            intro h' keeps' supply span'
            by_cases partly : bytes.length ≠ min (sz - i) PGSIZE
            · rw [if_pos partly]
              apply R.ret
              rw [decide_eq_false (by omega)] at next
              exact next h' keeps' supply span'
            · rw [if_neg partly]
              apply ih keeps' span'
              · rw [Nat.add_mul, Nat.one_mul] at enough
                omega
              · intro h'' keeps'' supply' span''
                have same : (sz ≤ i + PGSIZE ∨ offset + sz ≤ ip.size.toNat) ↔
                    (sz ≤ i ∨ offset + sz ≤ ip.size.toNat) := by
                  simp only [PGSIZE] at partly length ⊢
                  omega
                rw [decide_eq_decide.mpr same]
                exact next h'' keeps'' (supply'.trans supply) span''
      · rw [if_neg finished]
        rw [decide_eq_true (Or.inl (by omega))] at next
        exact R.ret (next h keeps rfl span)

/-- The table for the first page of a segment is there. -/
def Reachable (k vaddr : Nat) : Prop :=
  vaddr / PGSIZE / ENTRYSZ * ENTRYSZ < k

/-- What `uvm_load` does in a span that has the addresses of the segment. -/
theorem uvmLoad_span {post : Bool → Heap kernelEnd → Prop} (keeps : h.Keeps roots)
    (more : R.live ⊆ roots) (tree : (pgdir, 4) ∈ roots) (span : Span h pgdir k shown)
    (small : k ≤ 2 ^ 16) (covered : addr + sz ≤ k * PGSIZE)
    (panics : ¬ (addr % PGSIZE = offset % PGSIZE ∧ Reachable k addr) →
      ∀ message, R.mayPanic message)
    (next : ∀ h', addr % PGSIZE = offset % PGSIZE → Reachable k addr → h'.Keeps roots →
      h'.supply = h.supply → Span h' pgdir k shown →
      post (decide (offset + sz ≤ ip.size.toNat)) h') :
    R.wp (uvmLoad pgdir addr ip offset sz) h post := by
  rw [uvmLoad]
  by_cases aligned : addr % PGSIZE = offset % PGSIZE
  · rw [if_neg (not_not.mpr aligned)]
    have low : ROUNDDOWN addr PGSIZE < 2 ^ 30 := by
      simp only [ROUNDDOWN, PGSIZE] at covered ⊢
      omega
    have number : ROUNDDOWN addr PGSIZE / PGSIZE = addr / PGSIZE := by
      simp only [ROUNDDOWN, PGSIZE]
      omega
    apply R.bind
    apply pgdirWalk_table keeps tree low
    rw [number]
    by_cases reachable : Reachable k addr
    · rcases Option.isSome_iff_exists.mp (span.table.mpr reachable) with ⟨t, found⟩
      rcases span.entry keeps tree found with ⟨page, here, _⟩
      rw [found]
      have next' := fun h' => next h' aligned reachable
      apply R.bind
      apply R.word here
      simp only
      cases read : readi ip offset (min sz (PGSIZE - addr % PGSIZE)) with
      | none =>
          apply R.ret
          have cutOff := readi_eq_none read
          have size := ip.size.toNat_lt
          rw [decide_eq_false (by simp only [PGSIZE] at cutOff; omega)] at next'
          exact next' h keeps rfl span
      | some bytes =>
          have length := readi_length read
          have inside : bytes ≠ [] → addr / PGSIZE < k := by
            intro some
            have positive := List.length_pos_iff.mpr some
            simp only [PGSIZE] at covered length ⊢
            omega
          apply R.bind
          apply write_span keeps more tree span found here inside
          intro h' keeps' supply span'
          by_cases partly : bytes.length ≠ min sz (PGSIZE - addr % PGSIZE)
          · rw [if_pos partly]
            apply R.ret
            rw [decide_eq_false (by omega)] at next'
            exact next' h' keeps' supply span'
          · rw [if_neg partly]
            apply uvmLoadLoop_span keeps' more tree span' small
            · omega
            · simp only [PGSIZE]
              omega
            · intro h'' keeps'' supply' span''
              have same : (sz - min sz (PGSIZE - addr % PGSIZE) ≤ 0 ∨
                  offset + min sz (PGSIZE - addr % PGSIZE) +
                    (sz - min sz (PGSIZE - addr % PGSIZE)) ≤ ip.size.toNat) ↔
                  offset + sz ≤ ip.size.toNat := by
                simp only [PGSIZE] at partly length ⊢
                omega
              rw [decide_eq_decide.mpr same]
              exact next' h'' keeps'' (supply'.trans supply) span''
    · have missing : h.links.follow pgdir (tablePath (addr / PGSIZE)) = none :=
        Option.not_isSome_iff_eq_none.mp (span.table.not.mpr reachable)
      rw [missing]
      exact R.panic (panics (fun both => reachable both.2) _)
  · rw [if_pos aligned]
    exact R.panic (panics (fun both => aligned both.1) _)

/-! ## `clearpteu` -/

/-- An entry without PTE_USER leads where it led before. -/
theorem clear_user (w : Nat) :
    present (if user w then w - PTE_USER else w) = present w ∧
      target (if user w then w - PTE_USER else w) = target w ∧
      user (if user w then w - PTE_USER else w) = false := by
  by_cases access : user w
  · have bit := access
    rw [user, Nat.testBit_eq_decide_div_mod_eq, decide_eq_true_eq] at bit
    rw [if_pos access]
    have same : present (w - PTE_USER) = present w := by
      simp only [present, Nat.testBit_eq_decide_div_mod_eq, decide_eq_decide, PTE_USER]
      omega
    have page : pageOf (w - PTE_USER) = pageOf w := by
      simp only [pageOf, PTE_USER, PGSIZE]
      omega
    refine ⟨same, ?_, ?_⟩
    · rw [target, target, same, page]
    · simp only [user, Nat.testBit_eq_decide_div_mod_eq, decide_eq_false_iff_not, PTE_USER]
      omega
  · rw [if_neg access]
    exact ⟨rfl, rfl, Bool.eq_false_iff.mpr access⟩

/-- The page at `n` is hidden from the process. -/
theorem clearpteu_span {post : Unit → Heap kernelEnd → Prop} (keeps : h.Keeps roots)
    (more : R.live ⊆ roots) (tree : (pgdir, 4) ∈ roots) (span : Span h pgdir k shown)
    (small : k ≤ 2 ^ 16) (inside : n < k)
    (next : ∀ h', h'.Keeps roots → h'.supply = h.supply →
      Span h' pgdir k (Function.update shown n false) → (∀ m, Agree h h' pgdir m) →
      post () h') :
    R.wp (clearpteu pgdir (n * PGSIZE)) h post := by
  have low : n * PGSIZE < 2 ^ 30 := by
    simp only [PGSIZE]
    omega
  have number : n * PGSIZE / PGSIZE = n := Nat.mul_div_cancel _ (by decide)
  rcases span.some_table inside with ⟨t, found⟩
  rcases span.entry keeps tree found with ⟨page, here, entry⟩
  rw [if_pos inside] at entry
  rcases entry with ⟨y, linked, _⟩
  apply R.bind
  apply pgdirWalk_table keeps tree low
  rw [number, found]
  apply R.bind
  apply R.word here
  let cleared := if user (word page (n % ENTRYSZ)) then word page (n % ENTRYSZ) - PTE_USER
    else word page (n % ENTRYSZ)
  rcases clear_user (word page (n % ENTRYSZ)) with ⟨still, leads, hidden⟩
  have within : n % ENTRYSZ < ENTRYSZ := Nat.mod_lt _ (by decide)
  have fits : cleared < 2 ^ 64 := by
    have before := word_lt page (n % ENTRYSZ)
    simp only [cleared]
    split <;> omega
  have ordered : (h.put t (Vm.setWord page (n % ENTRYSZ) cleared)
      (Heap.usable_of_page here)).Keeps roots :=
    keeps.reflag here within fits leads
  apply R.setWord here (ordered.mono more)
  refine next _ ordered rfl ?_ fun m =>
    .reflag keeps tree found (by simp [tablePath]) here within fits leads
  apply span.setEntry keeps tree (by decide) _ found rfl here within fits
  · intro path' j w three inside' other old
    rcases List.length_eq_three.mp three with ⟨a, b, c, rfl⟩
    rintro rfl rfl
    have entry := old rfl rfl
    have differs : c * ENTRYSZ + j ≠ n := by
      rintro rfl
      apply other
      simp only [tablePath, Nat.mul_add_mod', Nat.mod_eq_of_lt inside', List.append_left_inj,
        List.cons.injEq, true_and, and_true]
      simp only [ENTRYSZ] at inside' ⊢
      omega
    rw [Function.update_of_ne differs]
    exact entry
  · intro _ _
    rw [Nat.div_add_mod' n ENTRYSZ, if_pos inside, Function.update_self]
    exact ⟨still.trans (children_eq_some linked).1, hidden⟩

/-! ## `copyout` -/

/-- `uva2ka` of a page below `UADDR_SZ`. -/
theorem uva2ka_span {post : Option Nat → Heap kernelEnd → Prop} (keeps : h.Keeps roots)
    (tree : (pgdir, 4) ∈ roots) (span : Span h pgdir k shown) (small : k ≤ 2 ^ 16)
    (inside : n < k) (hidden : shown n = false → post none h)
    (visible : ∀ y, shown n = true → h.links.follow pgdir (pagePath n) = some y →
      post (some y) h) :
    R.wp (uva2ka pgdir (n * PGSIZE)) h post := by
  have low : n * PGSIZE < 2 ^ 30 := by
    simp only [PGSIZE]
    omega
  have number : n * PGSIZE / PGSIZE = n := Nat.mul_div_cancel _ (by decide)
  rcases span.some_table inside with ⟨t, found⟩
  rcases span.entry keeps tree found with ⟨page, here, entry⟩
  rw [if_pos inside] at entry
  rcases entry with ⟨y, linked, reached, access⟩
  rcases children_eq_some linked with ⟨here', leads⟩
  apply R.bind
  apply pgdirWalk_table keeps tree low
  rw [number, found]
  apply R.bind
  apply R.word here
  cases shownAt : shown n with
  | false =>
      simp only [here', access, shownAt, Bool.and_false, Bool.false_eq_true, if_false]
      exact R.ret (hidden shownAt)
  | true =>
      simp only [here', access, shownAt, Bool.and_true, if_true, leads]
      exact R.ret (visible y shownAt reached)

/-- Bytes that fit into a page which the process sees are written to it. -/
theorem copyout_page {post : Bool → Heap kernelEnd → Prop} {buf : List UInt8} {off : Nat}
    (keeps : h.Keeps roots) (more : R.live ⊆ roots) (tree : (pgdir, 4) ∈ roots)
    (span : Span h pgdir k shown) (small : k ≤ 2 ^ 16) (inside : n < k)
    (visible : shown n = true) (found : h.links.follow pgdir (pagePath n) = some y)
    (here : h.page y = some page) (some : buf ≠ []) (fits : off + buf.length ≤ PGSIZE)
    (next : (h.put y (Bytes.splice page off buf) (Heap.usable_of_page here)).Keeps roots →
      Span (h.put y (Bytes.splice page off buf) (Heap.usable_of_page here)) pgdir k shown →
      post true (h.put y (Bytes.splice page off buf) (Heap.usable_of_page here))) :
    R.wp (copyout pgdir (n * PGSIZE + off) buf) h post := by
  have positive := List.length_pos_iff.mpr some
  have start : ROUNDDOWN (n * PGSIZE + off) PGSIZE = n * PGSIZE := by
    simp only [ROUNDDOWN, PGSIZE] at fits ⊢
    omega
  have back : n * PGSIZE + off - n * PGSIZE = off := Nat.add_sub_cancel_left _ _
  have four : (pagePath n).length = 4 := by simp [pagePath, tablePath]
  have ordered : (h.put y (Bytes.splice page off buf) (Heap.usable_of_page here)).Keeps roots :=
    keeps.rewrite_leaf tree four found
  rw [copyout, copyoutLoop, if_neg (by omega)]
  simp only [start, back]
  apply R.bind
  apply uva2ka_span keeps tree span small inside
  · intro hidden
    rw [visible] at hidden
    cases hidden
  · intro y' _ found'
    rw [found] at found'
    cases found'
    have whole : min (PGSIZE - off) buf.length = buf.length := by omega
    rw [whole, List.take_length, List.drop_length]
    apply R.bind
    apply R.write here (ordered.mono more)
    rw [copyoutLoop, if_pos List.length_nil]
    exact R.ret (next ordered (span.put keeps tree _ found))

/-- Bytes that would reach a hidden page from below are refused. -/
theorem copyoutLoop_refused {post : Bool → Heap kernelEnd → Prop} {buf : List UInt8} {g : Nat}
    (keeps : h.Keeps roots) (more : R.live ⊆ roots) (tree : (pgdir, 4) ∈ roots)
    (span : Span h pgdir k shown) (small : k ≤ 2 ^ 16) (inside : g < k)
    (hidden : shown g = false) (below : va < (g + 1) * PGSIZE)
    (reaches : g * PGSIZE < va + buf.length) (some : buf ≠ [])
    (enough : g < va / PGSIZE + fuel)
    (next : ∀ h', h'.Keeps roots → h'.supply = h.supply → post false h') :
    R.wp (copyoutLoop pgdir fuel va buf) h post := by
  induction fuel generalizing h va buf with
  | zero =>
      simp only [PGSIZE] at below enough
      omega
  | succ fuel ih =>
      have start : ROUNDDOWN va PGSIZE = va / PGSIZE * PGSIZE := by
        simp only [ROUNDDOWN, PGSIZE]
        omega
      have page_le : va / PGSIZE ≤ g := by
        simp only [PGSIZE] at below ⊢
        omega
      have positive := List.length_pos_iff.mpr some
      rw [copyoutLoop, if_neg (by omega)]
      simp only [start]
      apply R.bind
      apply uva2ka_span keeps tree span small (by omega : va / PGSIZE < k)
      · intro _
        exact R.ret (next h keeps rfl)
      · intro y visible found
        have other : va / PGSIZE ≠ g := by
          intro same
          rw [same, hidden] at visible
          cases visible
        have four : (pagePath (va / PGSIZE)).length = 4 := by simp [pagePath, tablePath]
        rcases Heap.mem_owned.mp (Forest.mem keeps pgdir 4 tree _ y four.le found) with
          ⟨page, here⟩
        have ordered : (h.put y
            (Bytes.splice page (va - va / PGSIZE * PGSIZE)
              (buf.take (min (PGSIZE - (va - va / PGSIZE * PGSIZE)) buf.length)))
            (Heap.usable_of_page here)).Keeps roots :=
          keeps.rewrite_leaf tree four found
        have small' : (va / PGSIZE * PGSIZE + PGSIZE) % 2 ^ 64 =
            va / PGSIZE * PGSIZE + PGSIZE := by
          apply Nat.mod_eq_of_lt
          simp only [PGSIZE] at below ⊢
          omega
        apply R.bind
        apply R.write here (ordered.mono more)
        rw [small']
        apply ih ordered (span.put keeps tree _ found)
        · simp only [PGSIZE] at other page_le ⊢
          omega
        · rw [List.length_drop]
          simp only [PGSIZE] at reaches other page_le ⊢
          omega
        · rw [← List.length_pos_iff, List.length_drop]
          simp only [PGSIZE] at reaches other page_le ⊢
          omega
        · simp only [PGSIZE] at enough ⊢
          omega
        · exact next

theorem copyout_refused {post : Bool → Heap kernelEnd → Prop} {buf : List UInt8} {g : Nat}
    (keeps : h.Keeps roots) (more : R.live ⊆ roots) (tree : (pgdir, 4) ∈ roots)
    (span : Span h pgdir k shown) (small : k ≤ 2 ^ 16) (inside : g < k)
    (hidden : shown g = false) (below : va < (g + 1) * PGSIZE)
    (reaches : g * PGSIZE < va + buf.length) (some : buf ≠ [])
    (next : ∀ h', h'.Keeps roots → h'.supply = h.supply → post false h') :
    R.wp (copyout pgdir va buf) h post := by
  apply copyoutLoop_refused keeps more tree span small inside hidden below reaches some _ next
  simp only [PGSIZE] at reaches ⊢
  omega

/-- Behind the 48 bits of the tables there is no entry to look at. -/
theorem copyout_wrapped {post : Bool → Heap kernelEnd → Prop} {buf : List UInt8}
    (keeps : h.Keeps roots) (tree : (pgdir, 4) ∈ roots) (span : Span h pgdir k shown)
    (high : 2 ^ 64 - 2 ^ 28 ≤ va) (fits : va < 2 ^ 64) (some : buf ≠ [])
    (panics : ∀ message, R.mayPanic message) :
    R.wp (copyout pgdir va buf) h post := by
  have positive := List.length_pos_iff.mpr some
  have first : PTX 0 (ROUNDDOWN va PGSIZE) = 511 := by
    simp only [PTX, ROUNDDOWN, PGSIZE, ENTRYSZ]
    omega
  have missing : h.links.follow pgdir (walkPath (ROUNDDOWN va PGSIZE) 3 0) = none := by
    rw [← Option.not_isSome_iff_eq_none, span.tables _ (by rw [walkPath_length])]
    simp only [walkPath, first, Covers]
    omega
  rw [copyout, copyoutLoop, if_neg (by omega)]
  apply R.bind
  apply R.bind
  apply pgdirWalk_find keeps tree
  rw [missing]
  exact R.panic (panics _)

end PiKernel.Vm
