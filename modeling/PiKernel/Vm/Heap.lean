import PiKernel.Base.Forest
import PiKernel.Vm.Paging

/-!
# The pages of one process

A `Heap` is what one process knows of the machine: the contents of the pages which
are in its hands, its trapframe, and how many pages are free where it runs alone.  `Rules`
is a program logic for the code of `vm.c` on heaps.  It is stated abstractly, as
the same proofs are needed for a process that runs alone and for one that is
interrupted by others.
-/

namespace PiKernel.Vm

open PiKernel.Conc
open PiKernel.Conc.Prog (perform)

/-! ## Entries -/

/-- What an entry of a table leads to. -/
def target (pte : Nat) : Option Nat :=
  if present pte then some (pageOf pte) else none

theorem pageOf_entry {x flags : Nat} (low : flags < PGSIZE) :
    pageOf (entry x flags) = x := by
  rw [pageOf, entry, Nat.mul_comm, Nat.mul_add_div (by simp [PGSIZE]),
    Nat.div_eq_of_lt low, Nat.add_zero]

theorem testBit_entry {x flags i : Nat} (low : flags < PGSIZE) (bit : i < 12) :
    (entry x flags).testBit i = flags.testBit i := by
  rw [entry, PGSIZE, Nat.mul_comm, Nat.testBit_two_pow_mul_add x low, if_pos bit]

theorem target_entry {x flags : Nat} (low : flags < PGSIZE) (odd : flags.testBit 0) :
    target (entry x flags) = some x := by
  have here : present (entry x flags) := by
    rw [present, testBit_entry low (by omega)]
    exact odd
  rw [target, if_pos here, pageOf_entry low]

@[simp]
theorem target_zero : target 0 = none := rfl

/-- The tables and pages that hang in a page. -/
def children (page : Page) : Nat → Option Nat := fun i => target (word page i)

@[simp]
theorem children_filled (i : Nat) : children (filled 0) i = none := by
  rw [children, word_filled, target_zero]

theorem children_setWord {page : Page} {i w : Nat} (inside : i < ENTRYSZ)
    (fits : w < 2 ^ 64) :
    children (setWord page i w) = Function.update (children page) i (target w) := by
  funext j
  by_cases same : j = i
  · subst same
    rw [children, word_setWord_same inside fits, Function.update_self]
  · rw [children, word_setWord_other same, Function.update_of_ne same, children]

/-- The links of physical memory, read as tables. -/
def links (mem : Nat → Page) : Links Nat Nat := fun x => children (mem x)

/-! ## Heaps -/

/-- A page that `kfree` accepts. -/
def Usable (kernelEnd x : Nat) : Prop :=
  kernelEnd ≤ x ∧ x * PGSIZE < PHYSTOP

instance (kernelEnd x : Nat) : Decidable (Usable kernelEnd x) :=
  inferInstanceAs (Decidable (_ ∧ _))

/-- The pages in the hands of one process. -/
@[ext]
structure Heap (kernelEnd : Nat) where
  page : Nat → Option Page
  usable : ∀ x, (page x).isSome → Usable kernelEnd x
  /-- The number of free pages, if no other process can change it. -/
  supply : Option Nat
  tf : Trapframe

namespace Heap

variable {kernelEnd : Nat} (h : Heap kernelEnd) {x y i w : Nat} {page page' : Page}

def owned : Set Nat := {x | (h.page x).isSome}

def links : Links Nat Nat := fun x i =>
  (h.page x).bind fun page => children page i

/-- New contents of a page, which is from now on in the hands of the process. -/
def put (x : Nat) (page : Page) (usable : Usable kernelEnd x) : Heap kernelEnd where
  page := Function.update h.page x (some page)
  usable y owned := by
    by_cases same : y = x
    · exact same ▸ usable
    · rw [Function.update_of_ne same] at owned
      exact h.usable y owned
  supply := h.supply
  tf := h.tf

/-- A page is given back. -/
def drop (x : Nat) : Heap kernelEnd where
  page := Function.update h.page x none
  usable y owned := by
    by_cases same : y = x
    · rw [same, Function.update_self] at owned
      cases owned
    · rw [Function.update_of_ne same] at owned
      exact h.usable y owned
  supply := h.supply.map (· + 1)
  tf := h.tf

/-- A page is taken from the free list. -/
def take (x : Nat) (page : Page) (usable : Usable kernelEnd x) : Heap kernelEnd :=
  { h.put x page usable with supply := h.supply.map (· - 1) }

variable {h} {usable usable' : Usable kernelEnd x}

theorem mem_owned : x ∈ h.owned ↔ ∃ page, h.page x = some page :=
  Option.isSome_iff_exists

theorem usable_of_page (here : h.page x = some page) : Usable kernelEnd x :=
  h.usable x (by rw [here]; rfl)

theorem links_of_page (here : h.page x = some page) : h.links x = children page := by
  funext i
  rw [links, here, Option.bind_some]

theorem links_eq_some {target : Nat} (linked : h.links x i = some target) :
    ∃ page, h.page x = some page ∧ children page i = some target :=
  Option.bind_eq_some_iff.mp linked

@[simp]
theorem put_page_same : (h.put x page usable).page x = some page :=
  Function.update_self _ _ _

theorem put_page_other (other : y ≠ x) : (h.put x page usable).page y = h.page y :=
  Function.update_of_ne other _ _

@[simp]
theorem take_page_same : (h.take x page usable).page x = some page :=
  Function.update_self _ _ _

theorem take_page_other (other : y ≠ x) : (h.take x page usable).page y = h.page y :=
  Function.update_of_ne other _ _

@[simp]
theorem drop_page_same : (h.drop x).page x = none :=
  Function.update_self _ _ _

theorem drop_page_other (other : y ≠ x) : (h.drop x).page y = h.page y :=
  Function.update_of_ne other _ _

@[simp]
theorem take_put :
    (h.take x page usable).put x page' usable' = h.take x page' usable := by
  ext1
  · exact Function.update_idem _ _ _
  · rfl
  · rfl

theorem put_drop (other : y ≠ x) :
    (h.drop y).put x page usable = (h.put x page usable).drop y := by
  ext1
  · exact Function.update_comm other _ _ _
  · rfl
  · rfl

theorem owned_put (here : x ∈ h.owned) : (h.put x page usable).owned = h.owned := by
  ext y
  by_cases same : y = x
  · subst same
    simp [owned] at here ⊢
    exact here
  · simp [owned, put_page_other same]

theorem owned_take : (h.take x page usable).owned = insert x h.owned := by
  ext y
  by_cases same : y = x
  · subst same
    simp [owned]
  · simp [owned, take_page_other same, same]

theorem owned_drop : (h.drop x).owned = h.owned \ {x} := by
  ext y
  by_cases same : y = x
  · subst same
    simp [owned]
  · simp [owned, drop_page_other same, same]

theorem links_put_other (other : y ≠ x) : (h.put x page usable).links y = h.links y := by
  funext i
  rw [links, links, put_page_other other]

theorem links_take_other (other : y ≠ x) : (h.take x page usable).links y = h.links y := by
  funext i
  rw [links, links, take_page_other other]

/-- A table entry is changed. -/
theorem links_put_setWord (here : h.page x = some page) (inside : i < ENTRYSZ)
    (fits : w < 2 ^ 64) :
    (h.put x (setWord page i w) usable).links = h.links.set x i (target w) := by
  funext y
  by_cases same : y = x
  · subst same
    rw [links_of_page put_page_same, children_setWord inside fits, Links.set,
      Function.update_self, links_of_page here]
  · rw [links_put_other same, Links.set, Function.update_of_ne same]

/-- The same pages without some of them. -/
structure Lacks (h' h : Heap kernelEnd) (gone : Set Nat) : Prop where
  missing : ∀ y, y ∈ gone → h'.page y = none
  other : ∀ {y}, y ∉ gone → h'.page y = h.page y
  tf : h'.tf = h.tf

theorem Lacks.links {h' : Heap kernelEnd} {gone : Set Nat} (lacks : h'.Lacks h gone)
    (other : x ∉ gone) : h'.links x = h.links x := by
  funext i
  rw [Heap.links, Heap.links, lacks.other other]

/-- Ways that avoid the missing pages are still there. -/
theorem Lacks.follow {h' : Heap kernelEnd} {gone : Set Nat} {height : Nat} {path : List Nat}
    (lacks : h'.Lacks h gone)
    (unreached : ∀ path : List Nat, path.length ≤ height → ∀ x,
      h.links.follow y path = some x → x ∉ gone) (short : path.length ≤ height) :
    h'.links.follow y path = h.links.follow y path := by
  refine Links.follow_congr ?_ short
  intro before z shorter found
  exact lacks.links (unreached before shorter.le z found)

theorem lacks_drop : (h.drop x).Lacks h {x} := by
  constructor
  · rintro y rfl
    exact drop_page_same
  · intro y other
    exact drop_page_other other
  · rfl

theorem Lacks.trans {h' h'' : Heap kernelEnd} {gone gone' : Set Nat}
    (first : h'.Lacks h gone) (second : h''.Lacks h' gone') :
    h''.Lacks h (gone ∪ gone') := by
  constructor
  · rintro y (old | new)
    · by_cases again : y ∈ gone'
      · exact second.missing y again
      · rw [second.other again, first.missing y old]
    · exact second.missing y new
  · intro y neither
    rw [second.other fun new => neither (Or.inr new),
      first.other fun old => neither (Or.inl old)]
  · rw [second.tf, first.tf]

/-- The pages that some paths of given lengths lead to. -/
def reach (h : Heap kernelEnd) (lengths : Nat → Prop) (r : Nat) : Set Nat :=
  {x | ∃ path : List Nat, lengths path.length ∧ h.links.follow r path = some x}

theorem reach_zero : h.reach (· = 0) x = {x} := by
  ext y
  constructor
  · rintro ⟨path, empty, found⟩
    rw [List.length_eq_zero_iff] at empty
    subst empty
    exact (Option.some.inj found).symm
  · rintro rfl
    exact ⟨[], rfl, rfl⟩

theorem reach_or {lengths lengths' : Nat → Prop} :
    h.reach (fun n => lengths n ∨ lengths' n) x = h.reach lengths x ∪ h.reach lengths' x := by
  ext y
  constructor
  · rintro ⟨path, first | second, found⟩
    · exact Or.inl ⟨path, first, found⟩
    · exact Or.inr ⟨path, second, found⟩
  · rintro (⟨path, first, found⟩ | ⟨path, second, found⟩)
    · exact ⟨path, Or.inl first, found⟩
    · exact ⟨path, Or.inr second, found⟩

/-- The pages which are reached through some entries of a table. -/
def below (h : Heap kernelEnd) (lengths : Nat → Prop) (x : Nat) (entries : List Nat) :
    Set Nat :=
  {y | ∃ i ∈ entries, ∃ target, h.links x i = some target ∧ y ∈ h.reach lengths target}

theorem below_nil {lengths : Nat → Prop} : h.below lengths x [] = ∅ := by
  simp [below]

theorem below_snoc {lengths : Nat → Prop} {entries : List Nat}
    (linked : h.links x i = some y) :
    h.below lengths x (entries ++ [i]) = h.below lengths x entries ∪ h.reach lengths y := by
  ext z
  constructor
  · rintro ⟨j, member, target, linked', reached⟩
    rcases List.mem_append.mp member with old | new
    · exact Or.inl ⟨j, old, target, linked', reached⟩
    · rw [List.mem_singleton.mp new, linked] at linked'
      cases linked'
      exact Or.inr reached
  · rintro (⟨j, member, target, linked', reached⟩ | reached)
    · exact ⟨j, List.mem_append_left _ member, target, linked', reached⟩
    · exact ⟨i, List.mem_append_right _ (List.mem_singleton_self i), y, linked, reached⟩

theorem below_snoc_none {lengths : Nat → Prop} {entries : List Nat}
    (absent : h.links x i = none) :
    h.below lengths x (entries ++ [i]) = h.below lengths x entries := by
  ext z
  constructor
  · rintro ⟨j, member, target, linked', reached⟩
    rcases List.mem_append.mp member with old | new
    · exact ⟨j, old, target, linked', reached⟩
    · rw [List.mem_singleton.mp new, absent] at linked'
      cases linked'
  · rintro ⟨j, member, rest⟩
    exact ⟨j, List.mem_append_left _ member, rest⟩

/-- What is below a table is reached by longer paths. -/
theorem below_eq_reach {lengths : Nat → Prop} {entries : List Nat}
    (every : ∀ i y, h.links x i = some y → i ∈ entries) :
    h.below lengths x entries = h.reach (fun n => ∃ m, n = m + 1 ∧ lengths m) x := by
  ext z
  constructor
  · rintro ⟨i, _, target, linked, path, length, found⟩
    refine ⟨i :: path, ⟨path.length, rfl, length⟩, ?_⟩
    rw [Links.follow_cons, linked, Option.bind_some, found]
  · rintro ⟨path, ⟨m, length, bound⟩, found⟩
    cases path with
    | nil => cases length
    | cons i path =>
        rw [Links.follow_cons] at found
        rcases Option.bind_eq_some_iff.mp found with ⟨y, linked, found'⟩
        rw [List.length_cons, Nat.add_right_cancel_iff] at length
        exact ⟨i, every i y linked, y, linked, path, length ▸ bound, found'⟩

/-! ## Trees -/

/-- The trees with the given roots and heights are disjoint and in the process's hands. -/
def Keeps (h : Heap kernelEnd) (roots : Set (Nat × Nat)) : Prop :=
  Forest h.links h.owned roots

variable {roots : Set (Nat × Nat)} {r height level : Nat} {path : List Nat}

namespace Keeps

theorem mono {roots' : Set (Nat × Nat)} (keeps : h.Keeps roots) (fewer : roots' ⊆ roots) :
    h.Keeps roots' :=
  Forest.mono keeps fewer

/-- A new page is a root of its own. -/
theorem take (keeps : h.Keeps roots) (new : h.page x = none) :
    (h.take x page usable).Keeps (insert (x, 0) roots) := by
  have outside : x ∉ h.owned := by simp [owned, new]
  rw [Keeps, owned_take]
  apply Forest.fresh keeps outside
  intro y owned
  apply links_take_other
  rintro rfl
  exact outside owned

/-- The contents of a page at the bottom of its tree do not matter. -/
theorem rewrite (keeps : h.Keeps roots) (here : x ∈ h.owned)
    (bottom : ∀ r height, (r, height) ∈ roots → ∀ path : List Nat, path.length < height →
      h.links.follow r path ≠ some x) :
    (h.put x page usable).Keeps roots := by
  rw [Keeps, owned_put here]
  apply Forest.congr keeps
  intro r height root path y short found
  apply links_put_other
  rintro rfl
  exact bottom r height root path short found

/-- No other tree leads to a root. -/
theorem apart (keeps : h.Keeps roots) (root : (x, level) ∈ roots)
    (root' : (r, height) ∈ roots) (short : path.length ≤ height)
    (found : h.links.follow r path = some x) : path = [] ∧ height = level := by
  rcases Forest.apart keeps root' root short found with ⟨_, equal, empty⟩
  exact ⟨empty, equal⟩

/-- The contents of a page that is a root without a tree do not matter. -/
theorem rewrite_root (keeps : h.Keeps roots) (root : (x, 0) ∈ roots) :
    (h.put x page usable).Keeps roots := by
  apply keeps.rewrite (Forest.root_mem keeps root)
  intro r height root' path short found
  rcases keeps.apart root root' short.le found with ⟨rfl, rfl⟩
  exact Nat.not_lt_zero _ short

/-- The contents of a page that is mapped do not matter. -/
theorem rewrite_leaf (keeps : h.Keeps roots) (root : (r, height) ∈ roots)
    (bottom : path.length = height) (found : h.links.follow r path = some x) :
    (h.put x page usable).Keeps roots := by
  apply keeps.rewrite (Forest.mem keeps r height root path x bottom.le found)
  intro r' height' root' path' short found'
  have equal := Forest.once keeps r' height' root' r height root path' path x short.le
    bottom.le found' found
  rw [equal.2.2, equal.2.1, bottom] at short
  exact lt_irrefl _ short

/-- A new page is on no way. -/
theorem follow_take (keeps : h.Keeps roots) (root : (r, height) ∈ roots)
    (new : h.page x = none) (short : path.length ≤ height) :
    (h.take x page usable).links.follow r path = h.links.follow r path := by
  refine Links.follow_congr ?_ short
  intro before y shorter reached
  apply links_take_other
  rintro rfl
  rcases mem_owned.mp (Forest.mem keeps r height root before y shorter.le reached) with
    ⟨page', owned⟩
  rw [new] at owned
  cases owned

/-- The ways that are not longer than the one to a page do not lead through it. -/
theorem follow_put_short {path' : List Nat} (keeps : h.Keeps roots)
    (root : (r, height) ∈ roots) (short : path.length ≤ height)
    (found : h.links.follow r path = some x) (shorter : path'.length ≤ path.length) :
    (h.put x page usable).links.follow r path' = h.links.follow r path' := by
  refine Links.follow_congr ?_ shorter
  intro before y shorter' reached
  apply links_put_other
  rintro rfl
  have equal := Forest.once keeps r height root r height root before path y (by omega) short
    reached found
  rw [equal.2.2] at shorter'
  exact lt_irrefl _ shorter'

theorem follow_put (keeps : h.Keeps roots) (root : (r, height) ∈ roots)
    (short : path.length ≤ height) (found : h.links.follow r path = some x) :
    (h.put x page usable).links.follow r path = some x :=
  (keeps.follow_put_short root short found le_rfl).trans found

/-- Pages that no tree leads to may be given back. -/
theorem lacks (keeps : h.Keeps roots) {h' : Heap kernelEnd} {gone : Set Nat}
    (lacks : h'.Lacks h gone)
    (unreached : ∀ r height, (r, height) ∈ roots → ∀ path : List Nat,
      path.length ≤ height → ∀ x, h.links.follow r path = some x → x ∉ gone) :
    h'.Keeps roots := by
  have same : ∀ r height, (r, height) ∈ roots → ∀ path : List Nat, path.length ≤ height →
      h'.links.follow r path = h.links.follow r path :=
    fun r height root path short => lacks.follow (unreached r height root) short
  constructor
  · intro r height root path y short found
    rw [same r height root path short] at found
    rcases mem_owned.mp (Forest.mem keeps r height root path y short found) with ⟨page, here⟩
    rw [← lacks.other (unreached r height root path short y found)] at here
    exact mem_owned.mpr ⟨page, here⟩
  · intro r height root r' height' root' path path' y short short' found found'
    rw [same r height root path short] at found
    rw [same r' height' root' path' short'] at found'
    exact Forest.once keeps r height root r' height' root' path path' y short short' found
      found'

/-- Pages of one tree may be given back. -/
theorem lacks_reach (keeps : h.Keeps (insert (x, level) roots)) (outside : (x, level) ∉ roots)
    {h' : Heap kernelEnd} {lengths : Nat → Prop} (short : ∀ n, lengths n → n ≤ level)
    (lacks : h'.Lacks h (h.reach lengths x)) : h'.Keeps roots := by
  refine (keeps.mono (Set.subset_insert _ _)).lacks lacks ?_
  rintro r height root path bound y found ⟨path', length, found'⟩
  have equal := Forest.once keeps r height (Or.inr root) x level (Or.inl rfl) path path' y
    bound (short _ length) found found'
  rw [equal.1, equal.2.1] at root
  exact outside root

/-- The root of a tree may be given back; the rest of the tree is lost. -/
theorem drop_root (keeps : h.Keeps (insert (x, level) roots)) (outside : (x, level) ∉ roots) :
    (h.drop x).Keeps roots := by
  have dropped : (h.drop x).Lacks h (h.reach (· = 0) x) := by
    rw [reach_zero]
    exact lacks_drop
  exact keeps.lacks_reach outside (by simp) dropped

/-- An empty table may become the root of a tree of any height. -/
theorem grow (keeps : h.Keeps (insert (x, 0) roots)) (outside : (x, 0) ∉ roots)
    (empty : h.page x = some (filled 0)) (height : Nat) :
    h.Keeps (insert (x, height) roots) := by
  apply Forest.grow keeps outside
  intro i
  rw [links_of_page empty, children_filled]

/-- An entry that leads to the same page as before changes no tree. -/
theorem reflag (keeps : h.Keeps roots) (here : h.page x = some page) (inside : i < ENTRYSZ)
    (fits : w < 2 ^ 64) (same : target w = children page i) :
    (h.put x (setWord page i w) usable).Keeps roots := by
  have owned : x ∈ h.owned := mem_owned.mpr ⟨page, here⟩
  have unchanged : h.links.set x i (target w) = h.links := by
    funext y j
    by_cases at' : y = x ∧ j = i
    · rcases at' with ⟨rfl, rfl⟩
      rw [Links.set_same, links_of_page here, same]
    · rw [Links.set_other at']
  rw [Keeps, owned_put owned, links_put_setWord here inside fits, unchanged]
  exact keeps

/-- A tree is hung into an entry. -/
theorem link (keeps : h.Keeps (insert (y, level) roots)) (outside : (y, level) ∉ roots)
    (root : (r, height) ∈ roots) (found : h.links.follow r path = some x)
    (depth : path.length + 1 + level = height) (here : h.page x = some page)
    (inside : i < ENTRYSZ) (fits : w < 2 ^ 64) (leads : target w = some y) :
    (h.put x (setWord page i w) usable).Keeps roots := by
  have owned : x ∈ h.owned := mem_owned.mpr ⟨page, here⟩
  rw [Keeps, owned_put owned, links_put_setWord here inside fits, leads]
  exact Forest.link keeps outside root found depth

/-- A page at the bottom of a tree is taken out of it. -/
theorem cut (keeps : h.Keeps roots) (root : (r, height) ∈ roots)
    (found : h.links.follow r path = some x) (here : h.page x = some page)
    (hangs : children page i = some y) (depth : path.length + 1 + level = height)
    (inside : i < ENTRYSZ) :
    (h.put x (setWord page i 0) usable).Keeps (insert (y, level) roots) := by
  have owned : x ∈ h.owned := mem_owned.mpr ⟨page, here⟩
  have linked : h.links x i = some y := by rw [links_of_page here, hangs]
  rw [Keeps, owned_put owned, links_put_setWord here inside (by norm_num), target_zero]
  exact Forest.cut keeps root found linked depth

/-- A page which no other page leads to is no root. -/
theorem not_root (keeps : h.Keeps roots) (new : h.page x = none) : (x, level) ∉ roots := by
  intro root
  rcases mem_owned.mp (Forest.root_mem keeps root) with ⟨page, here⟩
  rw [new] at here
  cases here

end Keeps

end Heap

end PiKernel.Vm
