import PiKernel.Vm.Contents

/-!
# Translations

The entry which the tables have for an address, with the page and the flags, as the hardware and
`pgdir_walk` find it.  A `Space` that gives every entry determines all translations.
-/

namespace PiKernel.Vm

open PiKernel.Conc

/-- An entry, if it is valid. -/
def valid (w : Nat) : Option Nat :=
  if present w then some w else none

@[simp]
theorem valid_zero : valid 0 = none := rfl

theorem valid_of_present {w : Nat} (here : present w = true) : valid w = some w :=
  if_pos here

theorem valid_of_absent {w : Nat} (absent : present w = false) : valid w = none :=
  if_neg (Bool.eq_false_iff.mp absent)

theorem valid_map_pageOf (w : Nat) : (valid w).map pageOf = target w := by
  rw [valid, target]
  split <;> rfl

theorem valid_eq_some {w x : Nat} : valid w = some x ↔ present w = true ∧ w = x := by
  rw [valid, Option.ite_none_right_eq_some, Option.some.injEq]

theorem valid_eq_none {w : Nat} : valid w = none ↔ target w = none := by
  rw [← valid_map_pageOf, Option.map_eq_none_iff]

/-- The valid entry for an address. -/
def translate (mem : Nat → Page) (pgdir va : Nat) : Option Nat :=
  ((links mem).follow pgdir (walkPath va 3 0)).bind fun table =>
    valid (word (mem table) (PTX 3 va))

/-- The last table for an address is there. -/
def HasTable (mem : Nat → Page) (pgdir va : Nat) : Prop :=
  ((links mem).follow pgdir (walkPath va 3 0)).isSome

instance (mem : Nat → Page) (pgdir va : Nat) : Decidable (HasTable mem pgdir va) :=
  inferInstanceAs (Decidable (_ = true))

variable {kernelEnd : Nat} {Pid : Type} {h h' : Heap kernelEnd} {roots : Set (Nat × Nat)}
  {pgdir t i n va height : Nat} {page : Page} {path : List Nat}
  {tables : List Nat → Prop} {entries : List Nat → Nat → Prop}

/-! ## Entries -/

/-- The entry at the end of a way through the tables, zero where there is no table. -/
def Heap.pte (h : Heap kernelEnd) (pgdir : Nat) (path : List Nat) : Nat :=
  ((h.links.follow pgdir path.dropLast).bind h.page).elim 0 fun page => word page (path.getLastD 0)

theorem Heap.pte_snoc (found : h.links.follow pgdir path = some t) (here : h.page t = some page) :
    h.pte pgdir (path ++ [i]) = word page i := by
  rw [Heap.pte, List.dropLast_concat, List.getLastD_concat, found, Option.bind_some, here]
  rfl

theorem Heap.pte_absent (absent : h.links.follow pgdir path = none) :
    h.pte pgdir (path ++ [i]) = 0 := by
  rw [Heap.pte, List.dropLast_concat, absent]
  rfl

/-- An entry of a last table is set. -/
theorem Heap.pte_setWord {w j : Nat} {path' : List Nat} {usable : Usable kernelEnd t}
    (keeps : h.Keeps roots) (tree : (pgdir, height) ∈ roots) (tall : 3 ≤ height)
    (found : h.links.follow pgdir path = some t) (three : path.length = 3)
    (here : h.page t = some page) (inside : i < ENTRYSZ) (three' : path'.length = 3) :
    (h.put t (setWord page i w) usable).pte pgdir (path' ++ [j]) =
      Function.update (h.pte pgdir) (path ++ [i]) (w % 2 ^ 64) (path' ++ [j]) := by
  have same : (h.put t (setWord page i w) usable).links.follow pgdir path' =
      h.links.follow pgdir path' :=
    keeps.follow_put_short tree (by omega) found (by omega)
  have differs : path' ≠ path → path' ++ [j] ≠ path ++ [i] :=
    fun other equal => other (List.append_inj_left equal (by rw [three', three]))
  cases reached : h.links.follow pgdir path' with
  | none =>
      have other : path' ≠ path := by
        rintro rfl
        rw [found] at reached
        cases reached
      rw [Heap.pte_absent (same.trans reached), Function.update_of_ne (differs other),
        Heap.pte_absent reached]
  | some t' =>
      rcases Heap.mem_owned.mp
        (Forest.mem keeps pgdir height tree path' t' (by omega) reached) with ⟨page', here'⟩
      by_cases table : t' = t
      · subst table
        have equal := Forest.once keeps pgdir height tree pgdir height tree path' path t'
          (by omega) (by omega) reached found
        have pathSame : path' = path := equal.2.2
        rw [Heap.pte_snoc (same.trans reached) Heap.put_page_same, pathSame]
        by_cases place : j = i
        · rw [place, word_setWord_mod inside, Function.update_self]
        · have other : path ++ [j] ≠ path ++ [i] :=
            fun equal => place (List.cons.inj (List.append_cancel_left equal)).1
          rw [word_setWord_other place, Function.update_of_ne other, Heap.pte_snoc found here]
      · have other : path' ≠ path := by
          rintro rfl
          rw [found] at reached
          exact table (Option.some.inj reached).symm
        rw [Heap.pte_snoc (same.trans reached) ((Heap.put_page_other table).trans here'),
          Function.update_of_ne (differs other), Heap.pte_snoc reached here']

/-- The page mapped at a number is the one of its entry. -/
theorem Heap.mapped_pte : h.mapped pgdir n = target (h.pte pgdir (leafPath n)) := by
  rw [Heap.mapped, leafPath, Links.follow_append]
  cases found : h.links.follow pgdir (walkPath (n * PGSIZE) 3 0) with
  | none => rw [Heap.pte_absent found, Option.bind_none, target_zero]
  | some t =>
      rw [Option.bind_some, Links.follow_cons]
      cases here : h.page t with
      | none =>
          rw [Heap.links, here, Heap.pte, List.dropLast_concat, found, Option.bind_some, here,
            Option.elim_none, target_zero]
          rfl
      | some page =>
          rw [Heap.links_of_page here, Heap.pte_snoc found here, children]
          cases target (word page (n % ENTRYSZ)) with
          | none => rfl
          | some y => rfl

namespace Space

/-- The entries of an address space are those that it has. -/
theorem self : Space h pgdir (fun path => (h.links.follow pgdir path).isSome)
    (fun path w => w = h.pte pgdir path) := by
  constructor
  · exact fun _ _ => Iff.rfl
  · intro path t page _ found here i _
    exact (Heap.pte_snoc found here).symm

/-- An entry is as the address space says, or its table is missing. -/
theorem pte (space : Space h pgdir tables entries) (keeps : h.Keeps roots)
    (tree : (pgdir, height) ∈ roots) (tall : 3 ≤ height) (three : path.length = 3)
    (inside : i < ENTRYSZ) :
    (¬ tables path ∧ h.pte pgdir (path ++ [i]) = 0) ∨
      (tables path ∧ entries (path ++ [i]) (h.pte pgdir (path ++ [i]))) := by
  cases found : h.links.follow pgdir path with
  | none =>
      refine Or.inl ⟨?_, Heap.pte_absent found⟩
      rw [← space.tables path three.le, found]
      exact Bool.false_ne_true
  | some t =>
      rcases Heap.mem_owned.mp
        (Forest.mem keeps pgdir height tree path t (by omega) found) with ⟨page, here⟩
      refine Or.inr ⟨?_, ?_⟩
      · rw [← space.tables path three.le, found]
        rfl
      · rw [Heap.pte_snoc found here]
        exact space.entries path t page three found here i inside

end Space

/-! ## Translations of a machine -/

section Machine

variable {p : Pid} {s : Machine Pid}

theorem hasTable_iff (keeps : (s.view kernelEnd p).Keeps roots)
    (tree : (pgdir, height) ∈ roots) (tall : 3 ≤ height) :
    HasTable s.mem pgdir va ↔
      ((s.view kernelEnd p).links.follow pgdir (walkPath va 3 0)).isSome := by
  rw [HasTable, Machine.follow_view keeps tree (by rw [walkPath_length]; exact tall)]

theorem translate_eq (keeps : (s.view kernelEnd p).Keeps roots)
    (tree : (pgdir, height) ∈ roots) (tall : 3 ≤ height) :
    translate s.mem pgdir va = valid ((s.view kernelEnd p).pte pgdir (leafPath (va / PGSIZE))) := by
  have length : (walkPath va 3 0).length ≤ height := by
    rw [walkPath_length]
    exact tall
  rw [translate, Machine.follow_view keeps tree length, leafPath, walkPath_number]
  cases found : (s.view kernelEnd p).links.follow pgdir (walkPath va 3 0) with
  | none => rw [Heap.pte_absent found, valid_zero, Option.bind_none]
  | some t =>
      rcases Heap.mem_owned.mp (Forest.mem keeps pgdir height tree _ t length found) with
        ⟨page, here⟩
      rw [Heap.pte_snoc found here, Option.bind_some, (Machine.view_page_eq_some here).2.2]
      rfl

end Machine

end PiKernel.Vm
