import PiKernel.Vm.Spaces

/-!
# Address spaces without gaps

`execve` grows an address space from 0 without gaps.  A `Span` says which tables
such an address space has and what every entry of its last tables is, which
decides where a walk finds an entry and how many pages the next one costs.
-/

namespace PiKernel.Vm

open PiKernel.Conc
open PiKernel.Conc.Prog (perform)

variable {kernelEnd : Nat} {Pid : Type} {R : Rules kernelEnd Pid}
  {h h' h'' : Heap kernelEnd} {roots : Set (Nat × Nat)}
  {x y t i k w pgdir height : Nat} {page : Page} {path : List Nat}

/-! ## Tables and entries -/

/-- The tables of an address space, and the entries of the last ones. -/
structure Space (h : Heap kernelEnd) (pgdir : Nat) (tables : List Nat → Prop)
    (entries : List Nat → Nat → Prop) : Prop where
  tables : ∀ path : List Nat, path.length ≤ 3 →
    ((h.links.follow pgdir path).isSome ↔ tables path)
  entries : ∀ (path : List Nat) t page, path.length = 3 →
    h.links.follow pgdir path = some t → h.page t = some page →
      ∀ i, i < ENTRYSZ → entries (path ++ [i]) (word page i)

namespace Space

variable {tables tables' : List Nat → Prop} {entries entries' : List Nat → Nat → Prop}

theorem weaken (space : Space h pgdir tables entries)
    (same : ∀ path, tables path ↔ tables' path)
    (implies : ∀ path w, entries path w → entries' path w) :
    Space h pgdir tables' entries' := by
  constructor
  · intro path short
    rw [space.tables path short, same]
  · intro path t page three found here i inside
    exact implies _ _ (space.entries path t page three found here i inside)

/-- An address space depends on its tables only. -/
theorem congr (space : Space h pgdir tables entries)
    (same : ∀ (path : List Nat) x, path.length ≤ 3 → h.links.follow pgdir path = some x →
      h'.page x = h.page x) :
    Space h' pgdir tables entries := by
  have follows : ∀ path : List Nat, path.length ≤ 3 →
      h'.links.follow pgdir path = h.links.follow pgdir path := by
    intro path short
    refine Links.follow_congr ?_ short
    intro before y shorter found
    funext i
    rw [Heap.links, Heap.links, same before y shorter.le found]
  constructor
  · intro path short
    rw [follows path short]
    exact space.tables path short
  · intro path t page three found here
    rw [follows path three.le] at found
    rw [same path t three.le found] at here
    exact space.entries path t page three found here

/-- A table that the address space has. -/
theorem child (space : Space h pgdir tables entries) (found : h.links.follow pgdir path = some x)
    (here : h.page x = some page) (short : path.length < 3) (table : tables (path ++ [i])) :
    ∃ y, children page i = some y ∧ h.links.follow pgdir (path ++ [i]) = some y := by
  have short' : (path ++ [i]).length ≤ 3 := by
    rw [List.length_append, List.length_singleton]
    exact short
  have isSome := (space.tables _ short').mpr table
  rcases Option.isSome_iff_exists.mp isSome with ⟨y, found'⟩
  have linked := found'
  rw [Links.follow_snoc found, Heap.links_of_page here] at linked
  exact ⟨y, linked, found'⟩

/-- A table that the address space does not have. -/
theorem noChild (space : Space h pgdir tables entries)
    (found : h.links.follow pgdir path = some x) (here : h.page x = some page)
    (short : path.length < 3) (missing : ¬ tables (path ++ [i])) :
    children page i = none := by
  have short' : (path ++ [i]).length ≤ 3 := by
    rw [List.length_append, List.length_singleton]
    exact short
  have isNone := (space.tables _ short').not.mpr missing
  rw [Option.not_isSome_iff_eq_none, Links.follow_snoc found, Heap.links_of_page here] at isNone
  exact isNone

/-- A new table. -/
theorem hang (space : Space h pgdir tables entries) (keeps : h.Keeps roots)
    (tree : (pgdir, height) ∈ roots) (tall : 3 ≤ height) (usable : Usable kernelEnd x)
    (usable' : Usable kernelEnd y) (found : h.links.follow pgdir path = some x)
    (short : path.length < 3)
    (here : h.page x = some page) (absent : children page i = none) (new : h.page y = none)
    (inside : i < ENTRYSZ)
    (empty : path.length = 2 → ∀ j, j < ENTRYSZ → entries (path ++ [i] ++ [j]) 0) :
    Space (h.hang x i y page usable usable') pgdir
      (fun path' => tables path' ∨ path' = path ++ [i]) entries := by
  have other : x ≠ y := by
    rintro rfl
    rw [here] at new
    cases new
  -- The ways in the new heap: the old ones, and the one to the new table.
  have ways : ∀ (path' : List Nat) z, path'.length ≤ 3 →
      ((h.hang x i y page usable usable').links.follow pgdir path' = some z ↔
        h.links.follow pgdir path' = some z ∨ path' = path ++ [i] ∧ z = y) :=
    fun path' z bound =>
      keeps.follow_hang_iff tree found (by omega) here absent new inside (by omega)
  constructor
  · intro path' bound
    constructor
    · intro isSome
      rcases Option.isSome_iff_exists.mp isSome with ⟨z, reached⟩
      rcases (ways path' z bound).mp reached with before | ⟨rfl, _⟩
      · exact Or.inl ((space.tables path' bound).mp (by rw [before]; rfl))
      · exact Or.inr rfl
    · rintro (table | rfl)
      · have isSome := (space.tables path' bound).mpr table
        rcases Option.isSome_iff_exists.mp isSome with ⟨z, reached⟩
        rw [(ways path' z bound).mpr (Or.inl reached)]
        rfl
      · rw [(ways _ y bound).mpr (Or.inr ⟨rfl, rfl⟩)]
        rfl
  · intro path' t page' three reached here' j inside'
    rcases (ways path' t three.le).mp reached with before | ⟨rfl, rfl⟩
    · have differs : t ≠ x := by
        rintro rfl
        have equal := Forest.once keeps pgdir height tree pgdir height tree path' path t (by omega)
          (by omega) before found
        rw [equal.2.2] at three
        omega
      have differs' : t ≠ y := by
        rintro rfl
        rcases Heap.mem_owned.mp
          (Forest.mem keeps pgdir height tree path' t (by omega) before) with ⟨page'', owned⟩
        rw [new] at owned
        cases owned
      rw [Heap.hang, Heap.put_page_other differs, Heap.take_page_other differs'] at here'
      exact space.entries path' t page' three before here' j inside'
    · rw [Heap.hang, Heap.put_page_other other.symm, Heap.take_page_same] at here'
      cases here'
      rw [word_filled]
      rw [List.length_append, List.length_singleton] at three
      exact empty (by omega) j inside'

/-- An entry of a last table is set. -/
theorem setEntry (space : Space h pgdir tables entries) (keeps : h.Keeps roots)
    (tree : (pgdir, height) ∈ roots) (tall : 3 ≤ height) (usable : Usable kernelEnd t)
    (found : h.links.follow pgdir path = some t) (three : path.length = 3)
    (here : h.page t = some page) (inside : i < ENTRYSZ) (fits : w < 2 ^ 64)
    (others : ∀ (path' : List Nat) j w, path'.length = 3 → j < ENTRYSZ →
      path' ++ [j] ≠ path ++ [i] → entries (path' ++ [j]) w → entries' (path' ++ [j]) w)
    (this : entries' (path ++ [i]) w) :
    Space (h.put t (setWord page i w) usable) pgdir tables entries' := by
  have follows : ∀ path' : List Nat, path'.length ≤ 3 →
      (h.put t (setWord page i w) usable).links.follow pgdir path' =
        h.links.follow pgdir path' :=
    fun path' bound => keeps.follow_put_short tree (by omega) found (by omega)
  constructor
  · intro path' bound
    rw [follows path' bound]
    exact space.tables path' bound
  · intro path' t' page' three' reached here' j inside'
    rw [follows path' three'.le] at reached
    by_cases same : t' = t
    · subst same
      have equal := Forest.once keeps pgdir height tree pgdir height tree path' path t' (by omega)
        (by omega) reached found
      rw [Heap.put_page_same] at here'
      cases here'
      rw [equal.2.2]
      by_cases same' : j = i
      · subst same'
        rw [word_setWord_same inside fits]
        exact this
      · rw [word_setWord_other same']
        apply others path j _ three inside'
        · intro equal'
          exact same' (List.cons.inj (List.append_cancel_left equal')).1
        · exact space.entries path t' page three found here j inside'
    · rw [Heap.put_page_other same] at here'
      apply others path' j _ three' inside'
      · intro equal
        have lengths := List.append_inj_left equal (by rw [three', three])
        rw [lengths, found] at reached
        exact same (Option.some.inj reached).symm
      · exact space.entries path' t' page' three' reached here' j inside'

end Space

/-! ## Address spaces from 0 on -/

/-- The tables over the first `k` pages. -/
def Covers (k : Nat) : List Nat → Prop
  | [] => True
  | [a] => a = 0 ∧ 0 < k
  | [a, b] => a = 0 ∧ b = 0 ∧ 0 < k
  | [a, b, c] => a = 0 ∧ b = 0 ∧ c * ENTRYSZ < k
  | _ => False

/-- The entries for the first `k` pages; `shown` are those which the process can access. -/
def Mapped (k : Nat) (shown : Nat → Bool) : List Nat → Nat → Prop
  | [a, b, c, d], w =>
      a = 0 → b = 0 →
        if c * ENTRYSZ + d < k then
          present w ∧ user w = shown (c * ENTRYSZ + d)
        else
          w = 0
  | _, _ => True

/-- An address space of the first `k` pages. -/
def Span (h : Heap kernelEnd) (pgdir k : Nat) (shown : Nat → Bool) : Prop :=
  Space h pgdir (Covers k) (Mapped k shown)

/-- The pages of `sz` bytes. -/
def pages (sz : Nat) : Nat := (sz + PGSIZE - 1) / PGSIZE

/-- The tables over `k` pages, besides the root. -/
def tablePages (k : Nat) : Nat :=
  if k = 0 then 0 else 2 + (k + ENTRYSZ - 1) / ENTRYSZ

/-- What an address space of `k` pages costs. -/
def need (k : Nat) : Nat := k + tablePages k

theorem walkPath_page {n : Nat} (low : n < 2 ^ 18) :
    walkPath (n * PGSIZE) 3 0 = [0, 0, n / ENTRYSZ] := by
  simp only [walkPath, PTX, PGSIZE, ENTRYSZ, List.cons.injEq, and_true]
  omega

theorem PTX_page (n : Nat) : PTX 3 (n * PGSIZE) = n % ENTRYSZ := by
  change n * 2 ^ 12 / 2 ^ 12 % ENTRYSZ = n % ENTRYSZ
  rw [Nat.mul_div_cancel _ (by norm_num)]

/-- A fresh page table. -/
theorem Span.empty {shown : Nat → Bool} (here : h.page pgdir = some (filled 0)) :
    Span h pgdir 0 shown := by
  have bare : ∀ (path : List Nat) x, h.links.follow pgdir path = some x → path = [] := by
    intro path x found
    cases path with
    | nil => rfl
    | cons i path =>
        rw [Links.follow_cons, Heap.links_of_page here, children_filled] at found
        cases found
  constructor
  · intro path short
    constructor
    · intro isSome
      rcases Option.isSome_iff_exists.mp isSome with ⟨x, found⟩
      rw [bare path x found]
      trivial
    · rcases path with _ | ⟨a, _ | ⟨b, _ | ⟨c, _ | ⟨d, rest⟩⟩⟩⟩ <;> simp [Covers]
  · intro path t page three found
    rw [bare path t found] at three
    cases three

/-! ## What an allocation costs -/

/-- The process has taken so many pages from the free list. -/
def Spent (h h' : Heap kernelEnd) (cost : Nat) : Prop :=
  h'.supply = h.supply.map (· - cost) ∧ ∀ n, h.supply = some n → cost ≤ n

/-- There are fewer free pages. -/
def Short (h : Heap kernelEnd) (cost : Nat) : Prop :=
  ∀ n, h.supply = some n → n < cost

theorem Spent.refl : Spent h h 0 := by
  constructor
  · cases h.supply <;> simp
  · intro n _
    exact Nat.zero_le n

theorem Spent.trans {cost cost' : Nat} (first : Spent h h' cost) (second : Spent h' h'' cost') :
    Spent h h'' (cost + cost') := by
  constructor
  · rw [second.1, first.1]
    cases h.supply <;> simp [Nat.sub_sub]
  · intro n supply
    have enough := first.2 n supply
    have left : h'.supply = some (n - cost) := by rw [first.1, supply]; rfl
    have enough' := second.2 _ left
    omega

theorem Spent.short {cost cost' : Nat} (spent : Spent h h' cost) (short : Short h' cost') :
    Short h (cost + cost') := by
  intro n supply
  have enough := spent.2 n supply
  have left : h'.supply = some (n - cost) := by rw [spent.1, supply]; rfl
  have missing := short _ left
  omega

theorem Short.of_empty (empty : h.supply = none ∨ h.supply = some 0) : Short h 1 := by
  intro n supply
  rcases empty with unknown | zero
  · rw [unknown] at supply
    cases supply
  · rw [zero] at supply
    cases supply
    exact Nat.zero_lt_one

theorem Short.mono {cost cost' : Nat} (short : Short h cost) (more : cost ≤ cost') :
    Short h cost' := by
  intro n supply
  exact lt_of_lt_of_le (short n supply) more

theorem Spent.take {usable : Usable kernelEnd x} (full : h.supply ≠ some 0) :
    Spent h (h.take x page usable) 1 := by
  constructor
  · rfl
  · rintro (_ | n) supply
    · exact absurd supply full
    · omega

theorem Spent.hang {usable : Usable kernelEnd x} {usable' : Usable kernelEnd y}
    (full : h.supply ≠ some 0) : Spent h (h.hang x i y page usable usable') 1 := by
  have taken : Spent h (h.take y (filled 0) usable') 1 := Spent.take full
  exact taken

/-! ## `pgdir_walk` in a span -/

section Walk

variable {tables : List Nat → Prop} {entries : List Nat → Nat → Prop}
  {va level levels cost : Nat} {post : Option (Nat × Nat) → Heap kernelEnd → Prop}

/-- The walk passes a table that is there. -/
theorem pgdirWalkLoop_pass (keeps : h.Keeps roots) (tree : (pgdir, height) ∈ roots)
    (tall : 3 ≤ height) (space : Space h pgdir tables entries)
    (found : h.links.follow pgdir path = some x)
    (short : path.length < 3) (table : tables (path ++ [PTX level va])) {alloc : Bool}
    (later : ∀ y, h.links.follow pgdir (path ++ [PTX level va]) = some y →
      R.wp (pgdirWalkLoop va alloc levels (level + 1) y) h post) :
    R.wp (pgdirWalkLoop va alloc (levels + 1) level x) h post := by
  rcases Heap.mem_owned.mp (Forest.mem keeps pgdir height tree path x (by omega) found) with
    ⟨page, here⟩
  rcases space.child found here short table with ⟨y, linked, found'⟩
  exact pgdirWalkLoop_hit here linked (later y found')

/-- The walk creates a table. -/
theorem pgdirWalkLoop_create (keeps : h.Keeps roots) (more : R.live ⊆ roots)
    (tree : (pgdir, height) ∈ roots) (tall : 3 ≤ height) (space : Space h pgdir tables entries)
    (found : h.links.follow pgdir path = some x) (short : path.length < 3)
    (missing : ¬ tables (path ++ [PTX level va]))
    (empty : path.length = 2 → ∀ j, j < ENTRYSZ →
      entries (path ++ [PTX level va] ++ [j]) 0)
    (fail : Short h 1 → post none h)
    (later : ∀ h' y, h'.Keeps roots → Spent h h' 1 →
      Space h' pgdir (fun path' => tables path' ∨ path' = path ++ [PTX level va]) entries →
      h'.links.follow pgdir (path ++ [PTX level va]) = some y →
      R.wp (pgdirWalkLoop va true levels (level + 1) y) h' post) :
    R.wp (pgdirWalkLoop va true (levels + 1) level x) h post := by
  rcases Heap.mem_owned.mp (Forest.mem keeps pgdir height tree path x (by omega) found) with
    ⟨page, here⟩
  have absent := space.noChild found here short missing
  apply pgdirWalkLoop_grow keeps more tree found
    (by omega : path.length + 1 + (height - (path.length + 1)) = height) here absent
  · intro empty
    exact fail (Short.of_empty empty)
  · intro y usable new full hung
    apply later _ y hung (Spent.hang full)
    · exact space.hang keeps tree tall _ usable found short here absent new (PTX_lt level va) empty
    · exact keeps.follow_hang _ usable tree found (by omega) new (PTX_lt level va)

variable {shown : Nat → Bool}

/-- The walk to the page behind a span creates the tables that it costs. -/
theorem pgdirWalk_span (keeps : h.Keeps roots) (more : R.live ⊆ roots)
    (tree : (pgdir, 4) ∈ roots) (span : Span h pgdir k shown) (low : k < 2 ^ 18)
    (fail : ∀ h', h'.Keeps roots → Short h (tablePages (k + 1) - tablePages k) → post none h')
    (done : ∀ h' t, h'.Keeps roots → Spent h h' (tablePages (k + 1) - tablePages k) →
      Space h' pgdir (Covers (k + 1)) (Mapped k shown) →
      h'.links.follow pgdir [0, 0, k / ENTRYSZ] = some t →
      post (some (t, k % ENTRYSZ)) h') :
    R.wp (pgdirWalk pgdir (k * PGSIZE) true) h post := by
  have indices := walkPath_page low
  simp only [walkPath, List.cons.injEq, and_true] at indices
  rcases indices with ⟨first, second, third⟩
  have last := PTX_page k
  have start : h.links.follow pgdir [] = some pgdir := rfl
  rcases Nat.eq_zero_or_pos k with rfl | positive
  · -- the first page: tables of all levels
    apply pgdirWalkLoop_create keeps more tree (by decide) span start (by simp)
    · simp [Covers]
    · intro two
      cases two
    · intro short
      exact fail h keeps (short.mono (by decide))
    · intro h₁ y₁ keeps₁ spent₁ space₁ found₁
      apply pgdirWalkLoop_create keeps₁ more tree (by decide) space₁ found₁ (by simp)
      · simp [Covers]
      · intro two
        cases two
      · intro short
        exact fail h₁ keeps₁ ((spent₁.short short).mono (by decide))
      · intro h₂ y₂ keeps₂ spent₂ space₂ found₂
        apply pgdirWalkLoop_create keeps₂ more tree (by decide) space₂ found₂ (by simp)
        · simp [Covers]
        · intro _ j _
          simp [Mapped]
        · intro short
          exact fail h₂ keeps₂ (((spent₁.trans spent₂).short short).mono (by decide))
        · intro h₃ y₃ keeps₃ spent₃ space₃ found₃
          apply R.ret
          rw [last]
          simp only [List.nil_append, List.cons_append, first, second, third] at space₃ found₃
          apply done h₃ y₃ keeps₃ ((spent₁.trans spent₂).trans spent₃) _ found₃
          apply space₃.weaken _ fun _ _ => id
          intro path
          rcases path with _ | ⟨a, _ | ⟨b, _ | ⟨c, _ | ⟨d, rest⟩⟩⟩⟩ <;>
            simp [Covers, ENTRYSZ]
  · have upper : ∀ i, i = 0 → Covers k [i] := fun i zero => ⟨zero, positive⟩
    have upper' : ∀ i j, i = 0 → j = 0 → Covers k [i, j] :=
      fun i j zero zero' => ⟨zero, zero', positive⟩
    apply pgdirWalkLoop_pass keeps tree (by decide) span start (by simp) (upper _ first)
    intro y₁ found₁
    apply pgdirWalkLoop_pass keeps tree (by decide) span found₁ (by simp) (upper' _ _ first second)
    intro y₂ found₂
    by_cases full : k % ENTRYSZ = 0
    · -- the first page of a last table
      have cost : tablePages (k + 1) - tablePages k = 1 := by
        simp only [tablePages, ENTRYSZ] at full ⊢
        split <;> split <;> omega
      rw [cost] at fail done
      apply pgdirWalkLoop_create keeps more tree (by decide) span found₂ (by simp)
      · simp only [List.nil_append, List.cons_append, first, second, third, Covers, ENTRYSZ]
          at full ⊢
        omega
      · intro _ j _
        simp only [List.nil_append, List.cons_append, first, second, third, Mapped, ENTRYSZ]
          at full ⊢
        intro _ _
        rw [if_neg (by omega)]
        trivial
      · intro short
        exact fail h keeps short
      · intro h₃ y₃ keeps₃ spent₃ space₃ found₃
        apply R.ret
        rw [last]
        simp only [List.nil_append, List.cons_append, first, second, third] at space₃ found₃
        apply done h₃ y₃ keeps₃ spent₃ _ found₃
        apply space₃.weaken _ fun _ _ => id
        intro path
        rcases path with _ | ⟨a, _ | ⟨b, _ | ⟨c, _ | ⟨d, rest⟩⟩⟩⟩ <;>
          simp [Covers, ENTRYSZ] at full ⊢ <;> omega
    · -- its table is there
      have cost : tablePages (k + 1) - tablePages k = 0 := by
        simp only [tablePages, ENTRYSZ] at full ⊢
        split <;> split <;> omega
      rw [cost] at fail done
      apply pgdirWalkLoop_pass keeps tree (by decide) span found₂ (by simp)
      · simp only [List.nil_append, List.cons_append, first, second, third, Covers, ENTRYSZ]
          at full ⊢
        exact ⟨trivial, trivial, by omega⟩
      · intro y₃ found₃
        apply R.ret
        rw [last]
        simp only [List.nil_append, List.cons_append, first, second, third] at found₃
        apply done h y₃ keeps Spent.refl _ found₃
        apply span.weaken _ fun _ _ => id
        intro path
        rcases path with _ | ⟨a, _ | ⟨b, _ | ⟨c, _ | ⟨d, rest⟩⟩⟩⟩ <;>
          simp [Covers, ENTRYSZ] at full ⊢ <;> omega

end Walk

/-! ## `uvm_alloc` in a span -/

theorem tablePages_mono {k' : Nat} (le : k ≤ k') : tablePages k ≤ tablePages k' := by
  simp only [tablePages, ENTRYSZ]
  split <;> split <;> omega

theorem need_mono {k' : Nat} (le : k ≤ k') : need k ≤ need k' :=
  Nat.add_le_add le (tablePages_mono le)

theorem need_succ (k : Nat) :
    need (k + 1) = need k + (1 + (tablePages (k + 1) - tablePages k)) := by
  have mono : tablePages k ≤ tablePages (k + 1) := tablePages_mono (Nat.le_succ k)
  simp only [need]
  omega

theorem lt_pages {sz : Nat} : k * PGSIZE < sz ↔ k < pages sz := by
  simp only [pages, PGSIZE]
  omega

theorem pages_lt {sz : Nat} (low : sz < UADDR_SZ) : pages sz ≤ 2 ^ 16 := by
  simp only [pages, PGSIZE, UADDR_SZ] at low ⊢
  omega

theorem ROUNDUP_page (sz : Nat) : ROUNDUP sz PGSIZE = pages sz * PGSIZE := by
  simp only [ROUNDUP, ROUNDDOWN, pages, PGSIZE]
  omega

variable {shown : Nat → Bool} {oldsz newsz fuel : Nat}

/-- Nothing changes but the entry of the next page. -/
theorem Mapped.grow (three : path.length = 3) (inside : i < ENTRYSZ)
    (other : path ++ [i] ≠ [0, 0, k / ENTRYSZ] ++ [k % ENTRYSZ])
    (old : Mapped k shown (path ++ [i]) w) : Mapped (k + 1) shown (path ++ [i]) w := by
  rcases List.length_eq_three.mp three with ⟨a, b, c, rfl⟩
  rintro rfl rfl
  have entry := old rfl rfl
  have differs : c * ENTRYSZ + i ≠ k := by
    intro equal
    have index : i = k % ENTRYSZ := by
      rw [← equal, Nat.mul_add_mod', Nat.mod_eq_of_lt inside]
    have table : c = k / ENTRYSZ := by
      simp only [ENTRYSZ] at inside equal ⊢
      omega
    rw [index, table] at other
    exact other rfl
  by_cases before : c * ENTRYSZ + i < k
  · rw [if_pos before] at entry
    rw [if_pos (by omega)]
    exact entry
  · rw [if_neg before] at entry
    rw [if_neg (by omega)]
    exact entry

theorem Mapped.new (here : present w) (access : user w = shown k) :
    Mapped (k + 1) shown ([0, 0, k / ENTRYSZ] ++ [k % ENTRYSZ]) w := by
  have number : k / ENTRYSZ * ENTRYSZ + k % ENTRYSZ = k := Nat.div_add_mod' k ENTRYSZ
  intro _ _
  rw [number, if_pos (Nat.lt_succ_self k)]
  exact ⟨here, access⟩

theorem present_page {perm : Nat} (lowPerm : perm < PGSIZE) :
    present (entry x (pageFlags perm)) := by
  rw [present, testBit_entry (pageFlags_lt lowPerm) (by omega)]
  simp [pageFlags, PTE_P]

theorem user_page {perm : Nat} (lowPerm : perm < PGSIZE) :
    user (entry x (pageFlags perm)) = perm.testBit 6 := by
  rw [user, testBit_entry (pageFlags_lt lowPerm) (by omega)]
  simp only [pageFlags, Nat.testBit_or]
  simp [PTE_P, PTE_TABLE, PTE_AF, PTE_NORMAL, Nat.testBit]

theorem mapRegion_span {post : Bool → Heap kernelEnd → Prop} {perm : Nat}
    (keeps : h.Keeps (insert (x, 0) roots)) (outside : (x, 0) ∉ roots)
    (more : R.live ⊆ roots) (tree : (pgdir, 4) ∈ roots) (span : Span h pgdir k shown)
    (low : k < 2 ^ 18) (lowPerm : perm < PGSIZE) (access : perm.testBit 6 = shown k)
    (fail : ∀ h', h'.Keeps (insert (x, 0) roots) →
      Short h (tablePages (k + 1) - tablePages k) → post false h')
    (done : ∀ h', h'.Keeps roots → Spent h h' (tablePages (k + 1) - tablePages k) →
      Span h' pgdir (k + 1) shown → post true h') :
    R.wp (mapRegion pgdir (k * PGSIZE) PGSIZE x perm) h post := by
  rw [mapRegion_eq (Nat.mul_mod_left _ _)]
  apply R.bind
  apply pgdirWalk_span keeps (more.trans (Set.subset_insert _ _)) (Or.inr tree) span low
  · intro h' keeps' short
    exact R.ret (fail h' keeps' short)
  · intro h' t keeps' spent space found
    rcases Heap.mem_owned.mp
      (Forest.mem keeps' pgdir 4 (Or.inr tree) _ t (by simp) found) with ⟨page, here⟩
    have inHand : x ∈ h'.owned := Forest.root_mem keeps' (Or.inl rfl)
    have fits : entry x (pageFlags perm) < 2 ^ 64 :=
      (h'.usable x inHand).entry_lt (pageFlags_lt lowPerm)
    have inside : k % ENTRYSZ < ENTRYSZ := Nat.mod_lt _ (by decide)
    have number : k / ENTRYSZ * ENTRYSZ + k % ENTRYSZ = k := Nat.div_add_mod' k ENTRYSZ
    have free : word page (k % ENTRYSZ) = 0 := by
      have entry := space.entries _ t page rfl found here _ inside
      simpa [Mapped, number] using entry
    let mapped := h'.put t (Vm.setWord page (k % ENTRYSZ) (entry x (pageFlags perm)))
      (Heap.usable_of_page here)
    have ordered : mapped.Keeps roots :=
      keeps'.link outside tree found rfl here inside fits (target_page x lowPerm)
    have grown : Span mapped pgdir (k + 1) shown := by
      apply space.setEntry keeps' (Or.inr tree) (by decide) _ found rfl here inside fits
      · intro path' j w three inside' other old
        exact Mapped.grow three inside' other old
      · exact Mapped.new (present_page lowPerm) ((user_page lowPerm).trans access)
    apply R.bind
    apply R.word here
    rw [if_neg (by rw [free]; decide)]
    apply R.bind
    apply R.setWord here
    · exact ordered.mono more
    · exact R.ret (done mapped ordered spent grown)

/-- All pages are there. -/
theorem Span.all {n : Nat} (span : Span h pgdir k shown) (equal : k = n) :
    Spent h h (need n - need k) ∧ Span h pgdir n shown := by
  subst equal
  rw [Nat.sub_self]
  exact ⟨Spent.refl, span⟩

theorem uvmAllocLoop_span {post : Bool → Heap kernelEnd → Prop} (noZero : 0 < kernelEnd)
    (keeps : h.Keeps roots) (more : R.live ⊆ roots) (tree : (pgdir, 4) ∈ roots)
    (span : Span h pgdir k fun _ => true) (low : newsz < UADDR_SZ) (below : k ≤ pages newsz)
    (enough : pages newsz ≤ k + fuel)
    (fail : ∀ h', h'.Keeps roots → Short h (need (pages newsz) - need k) → post false h')
    (done : ∀ h', h'.Keeps roots → Spent h h' (need (pages newsz) - need k) →
      Span h' pgdir (pages newsz) (fun _ => true) → post true h') :
    R.wp (uvmAllocLoop kernelEnd pgdir oldsz newsz fuel (k * PGSIZE)) h post := by
  induction fuel generalizing h k with
  | zero =>
      have all := span.all (by omega : k = pages newsz)
      exact R.ret (done h keeps all.1 all.2)
  | succ fuel ih =>
      rw [uvmAllocLoop]
      by_cases next : k * PGSIZE < newsz
      · rw [if_pos next]
        rw [lt_pages] at next
        have small := pages_lt low
        have cost := need_succ k
        have rest : need (k + 1) ≤ need (pages newsz) := need_mono next
        apply R.bind
        apply Rules.kalloc (keeps.mono more)
        · intro empty
          have short := Short.of_empty empty
          apply R.bind
          apply uvmDealloc_keeps (Or.inl noZero) keeps more tree
          intro h' keeps'
          exact R.ret (fail h' keeps' (short.mono (by omega)))
        · intro mem usable new full
          have inHand : (h.take mem (filled 0) usable).Keeps (insert (mem, 0) roots) :=
            keeps.take new
          have spent : Spent h (h.take mem (filled 0) usable) 1 := Spent.take full
          have span' : Span (h.take mem (filled 0) usable) pgdir k fun _ => true := by
            apply span.congr
            intro path x short found
            apply Heap.take_page_other
            rintro rfl
            rcases Heap.mem_owned.mp
              (Forest.mem keeps pgdir 4 tree path x (by omega) found) with ⟨page, owned⟩
            rw [new] at owned
            cases owned
          apply R.bind
          apply R.fill Heap.take_page_same
          · rw [Heap.take_put]
            exact inHand.mono (more.trans (Set.subset_insert _ _))
          · rw [Heap.take_put]
            apply R.bind
            apply mapRegion_span inHand (keeps.not_root new) more tree span' (by omega)
              (by decide) (by decide)
            · intro h' keeps' short
              apply R.bind
              apply uvmDealloc_keeps (Or.inl noZero) keeps'
                (more.trans (Set.subset_insert _ _)) (Or.inr tree)
              intro h'' keeps''
              have dropped := keeps''.drop_root (keeps.not_root new)
              apply R.bind
              apply Rules.kfree (Forest.root_mem keeps'' (Or.inl rfl)) (dropped.mono more)
              exact R.ret (fail _ dropped ((spent.short short).mono (by omega)))
            · intro h' keeps' spent' span''
              have step := spent.trans spent'
              have position : k * PGSIZE + PGSIZE = (k + 1) * PGSIZE := by
                rw [Nat.add_mul, Nat.one_mul]
              rw [if_pos rfl, position]
              apply ih keeps' span'' (Nat.succ_le_of_lt next) (by omega)
              · intro h'' keeps'' short
                exact fail h'' keeps'' ((step.short short).mono (by omega))
              · intro h'' keeps'' spent'' grown
                apply done h'' keeps'' _ grown
                have total := step.trans spent''
                have sum : need (pages newsz) - need k =
                    1 + (tablePages (k + 1) - tablePages k) +
                      (need (pages newsz) - need (k + 1)) := by omega
                rwa [sum]
      · rw [if_neg next]
        rw [lt_pages] at next
        have all := span.all (by omega : k = pages newsz)
        exact R.ret (done h keeps all.1 all.2)

/-- What `uvm_alloc` does with a span. -/
theorem uvmAlloc_span {post : Nat → Heap kernelEnd → Prop} (noZero : 0 < kernelEnd)
    (keeps : h.Keeps roots) (more : R.live ⊆ roots) (tree : (pgdir, 4) ∈ roots)
    (span : Span h pgdir (pages oldsz) fun _ => true)
    (tooLarge : UADDR_SZ ≤ newsz → post 0 h)
    (smaller : newsz < UADDR_SZ → newsz < oldsz → post oldsz h)
    (fail : ∀ h', newsz < UADDR_SZ → oldsz ≤ newsz → h'.Keeps roots →
      Short h (need (pages newsz) - need (pages oldsz)) → post 0 h')
    (done : ∀ h', newsz < UADDR_SZ → oldsz ≤ newsz → h'.Keeps roots →
      Spent h h' (need (pages newsz) - need (pages oldsz)) →
      Span h' pgdir (pages newsz) (fun _ => true) → post newsz h') :
    R.wp (uvmAlloc kernelEnd pgdir oldsz newsz) h post := by
  rw [uvmAlloc]
  by_cases large : newsz ≥ UADDR_SZ
  · rw [if_pos large]
    exact R.ret (tooLarge large)
  · rw [if_neg large]
    by_cases less : newsz < oldsz
    · rw [if_pos less]
      exact R.ret (smaller (by omega) less)
    · rw [if_neg less, ROUNDUP_page]
      have larger : oldsz ≤ newsz := by omega
      have mono : pages oldsz ≤ pages newsz :=
        Nat.div_le_div_right (by omega)
      have enough : pages newsz ≤ pages oldsz + (newsz / PGSIZE + 1) := by
        simp only [pages, PGSIZE]
        omega
      apply R.bind
      apply uvmAllocLoop_span noZero keeps more tree span (by omega) mono enough
      · intro h' keeps' short
        exact R.ret (fail h' (by omega) larger keeps' short)
      · intro h' keeps' spent span'
        exact R.ret (done h' (by omega) larger keeps' spent span')

end PiKernel.Vm
