import Mathlib.Data.List.Nodup
import Mathlib.Logic.Function.Basic

/-!
# Lists linked by pointers

Nodes that lead to each other through arrays of pointers.  A `Chain` is a list with one pointer
a node, which ends in a null pointer.  A `Ring` has two, and returns to the node it starts from.
Its laws are about assignments of single pointers, in the order in which code makes them.
-/

namespace PiKernel

universe u

variable {Node : Type u}

/-! ## Chains -/

/-- The nodes from `first` on, up to a null pointer. -/
def Chain (next : Node → Node) (null : Node) : Node → List Node → Prop
  | first, [] => first = null
  | first, x :: rest => first = x ∧ x ≠ null ∧ Chain next null (next x) rest

namespace Chain

variable {next next' : Node → Node} {null first x : Node} {nodes others rest : List Node}

theorem head (chain : Chain next null first (x :: rest)) : first = x :=
  chain.1

theorem tail (chain : Chain next null first (x :: rest)) : Chain next null (next x) rest :=
  chain.2.2

theorem eq_nil_iff (chain : Chain next null first nodes) : first = null ↔ nodes = [] := by
  cases nodes with
  | nil => exact iff_of_true chain rfl
  | cons x rest =>
      refine iff_of_false ?_ (List.cons_ne_nil x rest)
      rw [chain.head]
      exact chain.2.1

/-- Only the pointers of the nodes matter. -/
theorem congr (chain : Chain next null first nodes)
    (same : ∀ x ∈ nodes, next' x = next x) : Chain next' null first nodes := by
  induction nodes generalizing first with
  | nil => exact chain
  | cons x rest ih =>
      refine ⟨chain.head, chain.2.1, ?_⟩
      rw [same x List.mem_cons_self]
      exact ih chain.tail fun y member => same y (List.mem_cons_of_mem x member)

/-- The pointers determine the nodes. -/
theorem unique (chain : Chain next null first nodes) (chain' : Chain next null first others) :
    nodes = others := by
  induction nodes generalizing first others with
  | nil => exact (chain'.eq_nil_iff.mp chain).symm
  | cons x rest ih =>
      cases others with
      | nil => exact absurd (chain.head.symm.trans chain') chain.2.1
      | cons y rest' =>
          have same : x = y := chain.head.symm.trans chain'.head
          subst same
          rw [ih chain.tail chain'.tail]

theorem suffix {before : List Node} (chain : Chain next null first (before ++ x :: rest)) :
    Chain next null x (x :: rest) := by
  induction before generalizing first with
  | nil => exact ⟨rfl, chain.2⟩
  | cons y before ih => exact ih chain.tail

/-- A chain that ends has no cycle. -/
theorem nodup (chain : Chain next null first nodes) : nodes.Nodup := by
  induction nodes generalizing first with
  | nil => exact List.nodup_nil
  | cons x rest ih =>
      refine List.nodup_cons.mpr ⟨?_, ih chain.tail⟩
      intro again
      rcases List.append_of_mem again with ⟨before, after, rfl⟩
      have here : Chain next null x (x :: (before ++ x :: after)) := ⟨rfl, chain.2⟩
      have lengths := congrArg List.length (here.unique chain.tail.suffix)
      simp only [List.length_cons, List.length_append] at lengths
      omega

/-- A node is put in front. -/
theorem push [DecidableEq Node] (chain : Chain next null first nodes) (node : x ≠ null)
    (new : x ∉ nodes) : Chain (Function.update next x first) null x (x :: nodes) := by
  refine ⟨rfl, node, ?_⟩
  rw [Function.update_self]
  apply chain.congr
  intro y member
  apply Function.update_of_ne
  rintro rfl
  exact new member

end Chain

/-! ## Segments of doubly linked lists -/

/-- The way from one node to another, and back. -/
def Segment (next prev : Node → Node) : Node → List Node → Node → Prop
  | x, [], z => next x = z ∧ prev z = x
  | x, y :: nodes, z => next x = y ∧ prev y = x ∧ Segment next prev y nodes z

/-- The first node behind `x` that passes a test; the loop ends at `head`. -/
def search [DecidableEq Node] (next : Node → Node) (head : Node) (test : Node → Bool) :
    Nat → Node → Option Node
  | 0, _ => none
  | fuel + 1, x =>
      if x = head then
        none
      else if test x then
        some x
      else
        search next head test fuel (next x)

namespace Segment

variable {next prev next' prev' : Node → Node} {x y z : Node} {before after nodes : List Node}

theorem append_iff : Segment next prev x (before ++ y :: after) z ↔
    Segment next prev x before y ∧ Segment next prev y after z := by
  induction before generalizing x with
  | nil => exact and_assoc.symm
  | cons w before ih =>
      change _ ∧ _ ∧ Segment next prev w (before ++ y :: after) z ↔ (_ ∧ _ ∧ _) ∧ _
      rw [ih]
      tauto

theorem congr (segment : Segment next prev x nodes z)
    (nexts : ∀ w ∈ x :: nodes, next' w = next w)
    (prevs : ∀ w ∈ z :: nodes, prev' w = prev w) : Segment next' prev' x nodes z := by
  induction nodes generalizing x with
  | nil =>
      rw [Segment, nexts x List.mem_cons_self, prevs z List.mem_cons_self]
      exact segment
  | cons y nodes ih =>
      have y_mem : y ∈ z :: y :: nodes := List.mem_cons_of_mem z List.mem_cons_self
      refine ⟨?_, ?_, ?_⟩
      · rw [nexts x List.mem_cons_self]
        exact segment.1
      · rw [prevs y y_mem]
        exact segment.2.1
      · apply ih segment.2.2
        · exact fun w member => nexts w (List.mem_cons_of_mem x member)
        · intro w member
          apply prevs
          rcases List.mem_cons.mp member with rfl | member
          · exact List.mem_cons_self
          · exact List.mem_cons_of_mem z (List.mem_cons_of_mem y member)

/-- The way back visits the nodes in the reverse order. -/
theorem reverse (segment : Segment next prev x nodes z) :
    Segment prev next z nodes.reverse x := by
  induction nodes generalizing x with
  | nil => exact ⟨segment.2, segment.1⟩
  | cons y nodes ih =>
      rw [List.reverse_cons]
      exact append_iff.mpr ⟨ih segment.2.2, segment.2.1, segment.1⟩

/-- The pointer back leads to the last node. -/
theorem prev_mem (segment : Segment next prev x nodes z) : prev z ∈ x :: nodes := by
  induction nodes generalizing x with
  | nil =>
      rw [segment.2]
      exact List.mem_cons_self
  | cons y nodes ih => exact List.mem_cons_of_mem x (ih segment.2.2)

theorem next_mem (segment : Segment next prev x nodes z) : next x ∈ z :: nodes := by
  have back := segment.reverse.prev_mem
  rcases List.mem_cons.mp back with here | member
  · rw [here]
    exact List.mem_cons_self
  · exact List.mem_cons_of_mem z (List.mem_reverse.mp member)

/-- The last node leads elsewhere. -/
theorem retarget [DecidableEq Node] (segment : Segment next prev x nodes y)
    (nodup : (x :: nodes).Nodup)
    (nexts : ∀ w ∈ x :: nodes, next' w = Function.update next (prev y) z w)
    (prevs : ∀ w ∈ nodes, prev' w = prev w) (back : prev' z = prev y) :
    Segment next' prev' x nodes z := by
  induction nodes generalizing x with
  | nil =>
      rw [Segment, nexts x List.mem_cons_self, back, segment.2, Function.update_self]
      exact ⟨rfl, rfl⟩
  | cons w nodes ih =>
      have last := segment.2.2.prev_mem
      rw [List.nodup_cons] at nodup
      refine ⟨?_, ?_, ?_⟩
      · rw [nexts x List.mem_cons_self, Function.update_of_ne]
        · exact segment.1
        · rintro rfl
          exact nodup.1 last
      · rw [prevs w List.mem_cons_self]
        exact segment.2.1
      · apply ih segment.2.2 nodup.2
        · exact fun v member => nexts v (List.mem_cons_of_mem x member)
        · exact fun v member => prevs v (List.mem_cons_of_mem w member)

/-- The loop over the nodes finds what a search in their list finds. -/
theorem search_eq [DecidableEq Node] {head : Node} {test : Node → Bool} {fuel : Nat}
    (segment : Segment next prev x nodes head) (outside : head ∉ nodes)
    (enough : nodes.length < fuel) :
    search next head test fuel (next x) = nodes.find? test := by
  induction nodes generalizing x fuel with
  | nil =>
      obtain ⟨fuel, rfl⟩ := Nat.exists_eq_add_of_lt enough
      rw [search, if_pos segment.1]
      rfl
  | cons y nodes ih =>
      obtain ⟨fuel, rfl⟩ := Nat.exists_eq_add_of_lt enough
      rw [List.mem_cons, not_or] at outside
      rw [search, segment.1, if_neg (Ne.symm outside.1), List.find?_cons]
      cases test y with
      | true => rfl
      | false =>
          apply ih segment.2.2 outside.2
          rw [List.length_cons]
          omega

end Segment

/-! ## Rings -/

/-- The nodes of a doubly linked list, from behind `head` on and back to it. -/
structure Ring (next prev : Node → Node) (head : Node) (nodes : List Node) : Prop where
  segment : Segment next prev head nodes head
  nodup : (head :: nodes).Nodup

namespace Ring

variable {next prev next' prev' : Node → Node} {head x : Node} {nodes before after : List Node}

theorem empty (forth : next head = head) (back : prev head = head) : Ring next prev head [] :=
  ⟨⟨forth, back⟩, List.nodup_singleton head⟩

theorem reverse (ring : Ring next prev head nodes) : Ring prev next head nodes.reverse := by
  refine ⟨ring.segment.reverse, ?_⟩
  have nodup := ring.nodup
  rw [List.nodup_cons] at nodup ⊢
  rw [List.mem_reverse, List.nodup_reverse]
  exact nodup

variable [DecidableEq Node]

/-- The loop over a ring finds what a search in the list finds. -/
theorem search_eq {test : Node → Bool} {fuel : Nat} (ring : Ring next prev head nodes)
    (enough : nodes.length < fuel) :
    search next head test fuel (next head) = nodes.find? test :=
  ring.segment.search_eq (List.nodup_cons.mp ring.nodup).1 enough

/-- A node is put behind the head. -/
theorem push (ring : Ring next prev head nodes) (new : x ∉ head :: nodes) :
    Ring (Function.update (Function.update next x (next head)) head x)
      (Function.update (Function.update prev x head) (next head) x) head (x :: nodes) := by
  rw [List.mem_cons, not_or] at new
  have first := ring.segment.next_mem
  have apart : x ≠ next head := by
    intro same
    rw [← same] at first
    rcases List.mem_cons.mp first with here | member
    · exact new.1 here
    · exact new.2 member
  constructor
  · refine ⟨Function.update_self .., ?_, ?_⟩
    · rw [Function.update_of_ne apart, Function.update_self]
    · have nodup := List.nodup_cons.mp ring.nodup
      have forth : Function.update (Function.update next x (next head)) head x x = next head := by
        rw [Function.update_of_ne new.1, Function.update_self]
      have back : Function.update (Function.update prev x head) (next head) x (next head) = x :=
        Function.update_self ..
      cases nodes with
      | nil =>
          have last : next head = head := ring.segment.1
          rw [last] at forth back ⊢
          exact ⟨forth, back⟩
      | cons y nodes =>
          have second : next head = y := ring.segment.1
          rw [second] at forth back ⊢
          refine ⟨forth, back, ?_⟩
          rw [List.nodup_cons] at nodup
          rw [List.mem_cons, not_or] at nodup new
          apply ring.segment.2.2.congr
          · intro w member
            have other : w ≠ head := by
              rintro rfl
              rcases List.mem_cons.mp member with here | member
              · exact nodup.1.1 here
              · exact nodup.1.2 member
            have other' : w ≠ x := by
              rintro rfl
              rcases List.mem_cons.mp member with here | member
              · exact new.2.1 here
              · exact new.2.2 member
            rw [Function.update_of_ne other, Function.update_of_ne other']
          · intro w member
            have other : w ≠ y := by
              rintro rfl
              rcases List.mem_cons.mp member with here | member
              · exact nodup.1.1 here.symm
              · exact nodup.2.1 member
            have other' : w ≠ x := by
              rintro rfl
              rcases List.mem_cons.mp member with here | member
              · exact new.1 here
              · exact new.2.2 member
            rw [Function.update_of_ne other, Function.update_of_ne other']
  · have nodup := List.nodup_cons.mp ring.nodup
    rw [List.nodup_cons, List.nodup_cons, List.mem_cons, not_or]
    exact ⟨⟨Ne.symm new.1, nodup.1⟩, new.2, nodup.2⟩

/-- The neighbours of a node are linked to each other. -/
theorem unlink (ring : Ring next prev head (before ++ x :: after)) :
    Ring (Function.update next (prev x) (next x)) (Function.update prev (next x) (prev x)) head
      (before ++ after) := by
  have nodup : (head :: (before ++ x :: after)).Nodup := ring.nodup
  rcases Segment.append_iff.mp ring.segment with ⟨first, second⟩
  have last := first.prev_mem
  have parts : (head :: before).Nodup ∧ (x :: after).Nodup ∧
      ∀ w ∈ head :: before, w ∉ x :: after := by
    rw [← List.cons_append, List.nodup_append] at nodup
    exact ⟨nodup.1, nodup.2.1, fun w early late => nodup.2.2 w early w late rfl⟩
  constructor
  · cases after with
    | nil =>
        have forth : next x = head := second.1
        rw [List.append_nil, forth]
        apply first.retarget parts.1
        · exact fun w _ => rfl
        · intro w member
          apply Function.update_of_ne
          rintro rfl
          exact (List.nodup_cons.mp parts.1).1 member
        · exact Function.update_self ..
    | cons y after =>
        have forth : next x = y := second.1
        rw [forth]
        apply Segment.append_iff.mpr
        constructor
        · apply first.retarget parts.1
          · exact fun w _ => rfl
          · intro w member
            apply Function.update_of_ne
            rintro rfl
            exact parts.2.2 w (List.mem_cons_of_mem head member)
              (List.mem_cons_of_mem x List.mem_cons_self)
          · exact Function.update_self ..
        · apply second.2.2.congr
          · intro w member
            apply Function.update_of_ne
            rintro rfl
            exact parts.2.2 _ last (List.mem_cons_of_mem x member)
          · intro w member
            apply Function.update_of_ne
            rintro rfl
            rcases List.mem_cons.mp member with here | member
            · apply parts.2.2 w
              · rw [here]
                exact List.mem_cons_self
              · exact List.mem_cons_of_mem x List.mem_cons_self
            · exact (List.nodup_cons.mp (List.nodup_cons.mp parts.2.1).2).1 member
  · have fewer : (head :: (before ++ after)).Sublist (head :: (before ++ x :: after)) :=
      ((List.sublist_cons_self x after).append_left before).cons_cons head
    exact List.Nodup.sublist fewer nodup

end Ring

end PiKernel
