import Mathlib.Data.Set.Basic
import Mathlib.Data.List.Basic

/-!
# Forests in a heap of nodes

A heap links each of its nodes to others under indices.  `Forest` says that some
roots, each with a height, are roots of trees which share no node and whose nodes
all belong to a given set.  The laws say how a forest changes when a node is added
or taken away, and when a tree is hung into another one or cut off.
-/

namespace PiKernel

universe u v

/-- The links of every node. -/
abbrev Links (Node : Type u) (Index : Type v) := Node → Index → Option Node

variable {Node : Type u} {Index : Type v}

namespace Links

/-- The node at the end of a path. -/
def follow (links : Links Node Index) : Node → List Index → Option Node
  | x, [] => some x
  | x, i :: path => (links x i).bind fun y => follow links y path

variable {links links' : Links Node Index} {r x y z : Node} {i : Index}
  {path rest : List Index}

@[simp]
theorem follow_nil : links.follow x [] = some x :=
  rfl

theorem follow_cons : links.follow x (i :: path) =
    (links x i).bind fun y => links.follow y path :=
  rfl

theorem follow_append : links.follow x (path ++ rest) =
    (links.follow x path).bind fun y => links.follow y rest := by
  induction path generalizing x with
  | nil => rfl
  | cons i path ih =>
      rw [List.cons_append, follow_cons, follow_cons, Option.bind_assoc]
      exact congrArg _ (funext fun y => ih)

theorem follow_snoc (found : links.follow r path = some x) :
    links.follow r (path ++ [i]) = links x i := by
  rw [follow_append, found, Option.bind_some, follow_cons]
  simp

/-- A path goes only where its nodes lead it. -/
theorem follow_congr {height : Nat}
    (same : ∀ before y, before.length < height → links.follow r before = some y →
      links' y = links y)
    (short : path.length ≤ height) : links'.follow r path = links.follow r path := by
  induction path generalizing r height with
  | nil => rfl
  | cons i path ih =>
      rw [List.length_cons] at short
      have first : links' r = links r := same [] r (by simp; omega) rfl
      rw [follow_cons, follow_cons, first]
      cases next : links r i with
      | none => rfl
      | some y =>
          simp only [Option.bind_some]
          have below : path.length ≤ height - 1 := by omega
          apply ih _ below
          intro before z shorter found
          apply same (i :: before) z
          · rw [List.length_cons]
            omega
          · rw [follow_cons, next, Option.bind_some, found]

/-- Fewer links lead to fewer nodes. -/
theorem follow_mono (fewer : ∀ x i y, links' x i = some y → links x i = some y)
    (found : links'.follow r path = some z) : links.follow r path = some z := by
  induction path generalizing r with
  | nil => exact found
  | cons i path ih =>
      rw [follow_cons] at found
      rcases Option.bind_eq_some_iff.mp found with ⟨y, first, later⟩
      rw [follow_cons, fewer r i y first, Option.bind_some]
      exact ih later

/-- A node on the way has a path of its own. -/
theorem follow_prefix (found : links.follow r (path ++ rest) = some z) :
    ∃ y, links.follow r path = some y ∧ links.follow y rest = some z := by
  rw [follow_append] at found
  exact Option.bind_eq_some_iff.mp found

variable [DecidableEq Node] [DecidableEq Index]

/-- Change one link. -/
def set (links : Links Node Index) (x : Node) (i : Index) (target : Option Node) :
    Links Node Index :=
  Function.update links x (Function.update (links x) i target)

variable {target : Option Node}

theorem set_same : links.set x i target x i = target := by
  simp [set]

theorem set_other {x' : Node} {j : Index} (other : ¬ (x' = x ∧ j = i)) :
    links.set x i target x' j = links x' j := by
  by_cases same : x' = x
  · subst same
    have differs : j ≠ i := fun equal => other ⟨rfl, equal⟩
    simp [set, differs]
  · simp [set, same]

/-- A path in the new heap is one of the old, or goes through the new link. -/
theorem follow_set (found : (links.set x i (some y)).follow r path = some z) :
    links.follow r path = some z ∨
      ∃ before after, path = before ++ i :: after ∧ links.follow r before = some x ∧
        (links.set x i (some y)).follow y after = some z := by
  induction path generalizing r with
  | nil => exact Or.inl found
  | cons j path ih =>
      rw [follow_cons] at found
      rcases Option.bind_eq_some_iff.mp found with ⟨next, first, later⟩
      by_cases here : r = x ∧ j = i
      · rcases here with ⟨rfl, rfl⟩
        rw [set_same] at first
        cases first
        exact Or.inr ⟨[], path, rfl, rfl, later⟩
      · rw [set_other here] at first
        rcases ih later with old | ⟨before, after, split, reached, tail⟩
        · left
          rw [follow_cons, first, Option.bind_some, old]
        · right
          refine ⟨j :: before, after, by rw [split]; rfl, ?_, tail⟩
          rw [follow_cons, first, Option.bind_some, reached]

end Links

/-! ## Forests -/

/-- Disjoint trees with roots of the given heights, on the given nodes. -/
structure Forest (links : Links Node Index) (owned : Set Node) (roots : Set (Node × Nat)) :
    Prop where
  mem : ∀ r h, (r, h) ∈ roots → ∀ path x, path.length ≤ h →
    links.follow r path = some x → x ∈ owned
  once : ∀ r h, (r, h) ∈ roots → ∀ r' h', (r', h') ∈ roots → ∀ path path' x,
    path.length ≤ h → path'.length ≤ h' → links.follow r path = some x →
      links.follow r' path' = some x → r = r' ∧ h = h' ∧ path = path'

namespace Forest

variable {links links' : Links Node Index} {owned owned' : Set Node}
  {roots roots' : Set (Node × Nat)} {r x y : Node} {h k : Nat} {i : Index}
  {path : List Index}

theorem root_mem (forest : Forest links owned roots) (root : (r, h) ∈ roots) :
    r ∈ owned :=
  forest.mem r h root [] r (Nat.zero_le _) rfl

theorem mono (forest : Forest links owned roots) (fewer : roots' ⊆ roots) :
    Forest links owned roots' := by
  constructor
  · intro r h root
    exact forest.mem r h (fewer root)
  · intro r h root r' h' root'
    exact forest.once r h (fewer root) r' h' (fewer root')

/-- A tree within a tree. -/
theorem sub (forest : Forest links owned (insert (x, h) roots)) (outside : (x, h) ∉ roots)
    {before : List Index} (reached : links.follow x before = some y)
    (below : before.length + k ≤ h) : Forest links owned (insert (y, k) roots) := by
  have root : (x, h) ∈ insert (x, h) roots := Or.inl rfl
  have through : ∀ path z, links.follow y path = some z →
      links.follow x (before ++ path) = some z := by
    intro path z found
    rw [Links.follow_append, reached, Option.bind_some, found]
  have deeper : ∀ path : List Index, path.length ≤ k → (before ++ path).length ≤ h := by
    intro path short
    rw [List.length_append]
    omega
  constructor
  · rintro r m (same | other) path z short found
    · cases same
      exact forest.mem x h root _ z (deeper path short) (through path z found)
    · exact forest.mem r m (Or.inr other) path z short found
  · rintro r m (same | other) r' m' (same' | other') path path' z short short' found found'
    · cases same
      cases same'
      have equal := forest.once x h root x h root _ _ z (deeper path short)
        (deeper path' short') (through path z found) (through path' z found')
      exact ⟨rfl, rfl, List.append_cancel_left equal.2.2⟩
    · cases same
      have equal := forest.once x h root r' m' (Or.inr other') _ path' z
        (deeper path short) short' (through path z found) found'
      rw [equal.1, equal.2.1] at outside
      exact absurd other' outside
    · cases same'
      have equal := forest.once x h root r m (Or.inr other) _ path z
        (deeper path' short') short (through path' z found') found
      rw [equal.1, equal.2.1] at outside
      exact absurd other outside
    · exact forest.once r m (Or.inr other) r' m' (Or.inr other') path path' z short short'
        found found'

/-- Two roots with a common node are the same. -/
theorem apart (forest : Forest links owned roots) (root : (r, h) ∈ roots)
    (root' : (y, k) ∈ roots) (short : path.length ≤ h)
    (found : links.follow r path = some y) : r = y ∧ h = k ∧ path = [] :=
  forest.once r h root y k root' path [] y short (Nat.zero_le _) found rfl

/-- Only the links of nodes above the bottom matter. -/
theorem congr (forest : Forest links owned roots)
    (same : ∀ r h, (r, h) ∈ roots → ∀ path x, path.length < h →
      links.follow r path = some x → links' x = links x) :
    Forest links' owned roots := by
  have follows : ∀ r h, (r, h) ∈ roots → ∀ path : List Index, path.length ≤ h →
      links'.follow r path = links.follow r path :=
    fun r h root path short => Links.follow_congr (same r h root) short
  constructor
  · intro r h root path x short found
    rw [follows r h root path short] at found
    exact forest.mem r h root path x short found
  · intro r h root r' h' root' path path' x short short' found found'
    rw [follows r h root path short] at found
    rw [follows r' h' root' path' short'] at found'
    exact forest.once r h root r' h' root' path path' x short short' found found'

/-- A new node, whatever its links, is a tree of its own. -/
theorem fresh (forest : Forest links owned roots) (new : x ∉ owned)
    (same : ∀ y, y ∈ owned → links' y = links y) :
    Forest links' (insert x owned) (insert (x, 0) roots) := by
  have kept : Forest links' owned roots := by
    apply forest.congr
    intro r h root path y short found
    exact same y (forest.mem r h root path y short.le found)
  have single : ∀ (path : List Index) z, path.length ≤ 0 →
      links'.follow x path = some z → path = [] ∧ z = x := by
    intro path z short found
    have empty : path = [] := List.length_eq_zero_iff.mp (by omega)
    subst empty
    exact ⟨rfl, (Option.some.inj found).symm⟩
  constructor
  · rintro r h (same | root) path z short found
    · cases same
      exact Or.inl (single path z short found).2
    · exact Or.inr (kept.mem r h root path z short found)
  · rintro r h (same | root) r' h' (same' | root') path path' z short short' found found'
    · cases same
      cases same'
      exact ⟨rfl, rfl, (single path z short found).1.trans
        (single path' z short' found').1.symm⟩
    · cases same
      have here := (single path z short found).2
      subst here
      exact absurd (kept.mem r' h' root' path' z short' found') new
    · cases same'
      have here := (single path' z short' found').2
      subst here
      exact absurd (kept.mem r h root path z short found) new
    · exact kept.once r h root r' h' root' path path' z short short' found found'

/-- A node without links is a tree of any height. -/
theorem grow (forest : Forest links owned (insert (x, 0) roots)) (outside : (x, 0) ∉ roots)
    (bare : ∀ i, links x i = none) (h : Nat) :
    Forest links owned (insert (x, h) roots) := by
  have single : ∀ (path : List Index) z, links.follow x path = some z →
      path = [] ∧ z = x := by
    intro path z found
    cases path with
    | nil => exact ⟨rfl, (Option.some.inj found).symm⟩
    | cons i path =>
        rw [Links.follow_cons, bare] at found
        cases found
  have root : (x, 0) ∈ insert (x, 0) roots := Or.inl rfl
  constructor
  · rintro r m (same | other) path z short found
    · cases same
      rw [(single path z found).2]
      exact forest.root_mem root
    · exact forest.mem r m (Or.inr other) path z short found
  · rintro r m (same | other) r' m' (same' | other') path path' z short short' found found'
    · cases same
      cases same'
      exact ⟨rfl, rfl, (single path z found).1.trans (single path' z found').1.symm⟩
    · cases same
      have here := (single path z found).2
      subst here
      have equal := forest.apart (Or.inr other') root short' found'
      rw [equal.1, equal.2.1] at other'
      exact absurd other' outside
    · cases same'
      have here := (single path' z found').2
      subst here
      have equal := forest.apart (Or.inr other) root short found
      rw [equal.1, equal.2.1] at other
      exact absurd other outside
    · exact forest.once r m (Or.inr other) r' m' (Or.inr other') path path' z short short'
        found found'

variable [DecidableEq Node] [DecidableEq Index]

/-- A tree is hung into another one. -/
theorem link (forest : Forest links owned (insert (y, k) roots)) (outside : (y, k) ∉ roots)
    (root : (r, h) ∈ roots) (found : links.follow r path = some x)
    (level : path.length + 1 + k = h) :
    Forest (links.set x i (some y)) owned roots := by
  have tree : (y, k) ∈ insert (y, k) roots := Or.inl rfl
  have cases' : ∀ s m, (s, m) ∈ roots → ∀ path' z, path'.length ≤ m →
      (links.set x i (some y)).follow s path' = some z →
        links.follow s path' = some z ∨
          s = r ∧ m = h ∧ ∃ after, path' = path ++ i :: after ∧ after.length ≤ k ∧
            links.follow y after = some z := by
    intro s m other path' z short reached
    rcases Links.follow_set reached with old | ⟨before, after, split, hit, tail⟩
    · exact Or.inl old
    · right
      have lengths : before.length + 1 + after.length = path'.length := by
        rw [split, List.length_append, List.length_cons]
        omega
      rcases forest.once s m (Or.inr other) r h (Or.inr root) before path x
        (by omega) (by omega) hit found with ⟨rfl, rfl, rfl⟩
      refine ⟨rfl, rfl, after, split, by omega, ?_⟩
      rcases Links.follow_set tail with old | ⟨inner, _, split', again, _⟩
      · exact old
      · have shorter : inner.length ≤ k := by
          have bound := congrArg List.length split'
          rw [List.length_append, List.length_cons] at bound
          omega
        have equal := forest.once y k tree s m (Or.inr root) inner before x shorter
          (by omega) again found
        omega
  constructor
  · intro s m other path' z short reached
    rcases cases' s m other path' z short reached with old | ⟨_, _, after, _, below, new⟩
    · exact forest.mem s m (Or.inr other) path' z short old
    · exact forest.mem y k tree after z below new
  · intro s m other s' m' other' first second z short short' reached reached'
    rcases cases' s m other first z short reached with
      old | ⟨rfl, rfl, after, rfl, below, new⟩ <;>
    rcases cases' s' m' other' second z short' reached' with
      old' | ⟨rfl, rfl, after', rfl, below', new'⟩
    · exact forest.once s m (Or.inr other) s' m' (Or.inr other') first second z short
        short' old old'
    · rcases forest.once s m (Or.inr other) y k tree first after' z short below' old new'
        with ⟨rfl, rfl, _⟩
      exact absurd other outside
    · rcases forest.once s' m' (Or.inr other') y k tree second after z short' below old' new
        with ⟨rfl, rfl, _⟩
      exact absurd other' outside
    · have equal := forest.once y k tree y k tree after after' z below below' new new'
      exact ⟨rfl, rfl, by rw [equal.2.2]⟩

/-- A tree is cut off from the one in which it hangs. -/
theorem cut (forest : Forest links owned roots) (root : (r, h) ∈ roots)
    (found : links.follow r path = some x) (hangs : links x i = some y)
    (level : path.length + 1 + k = h) :
    Forest (links.set x i none) owned (insert (y, k) roots) := by
  have fewer : ∀ x' j z, links.set x i none x' j = some z → links x' j = some z := by
    intro x' j z linked
    by_cases here : x' = x ∧ j = i
    · rcases here with ⟨rfl, rfl⟩
      rw [Links.set_same] at linked
      cases linked
    · rwa [Links.set_other here] at linked
  have through : ∀ after z, links.follow y after = some z →
      links.follow r (path ++ i :: after) = some z := by
    intro after z reached
    rw [Links.follow_append, found, Option.bind_some, Links.follow_cons, hangs,
      Option.bind_some, reached]
  have length : ∀ after : List Index, after.length ≤ k →
      (path ++ i :: after).length ≤ h := by
    intro after below
    rw [List.length_append, List.length_cons]
    omega
  have missed : ∀ (after : List Index) z,
      (links.set x i none).follow r (path ++ i :: after) ≠ some z := by
    intro after z reached
    rcases Links.follow_prefix reached with ⟨u, first, later⟩
    have same := Links.follow_mono fewer first
    rw [found] at same
    cases same
    rw [Links.follow_cons, Links.set_same] at later
    cases later
  have separate : ∀ s m, (s, m) ∈ roots → ∀ first after z, first.length ≤ m →
      after.length ≤ k → (links.set x i none).follow s first = some z →
        (links.set x i none).follow y after ≠ some z := by
    intro s m other first after z short below reached reached'
    have old := Links.follow_mono fewer reached
    have old' := through after z (Links.follow_mono fewer reached')
    rcases forest.once s m other r h root first _ z short (length after below) old old'
      with ⟨rfl, rfl, rfl⟩
    exact missed after z reached
  constructor
  · rintro s m (same | other) first z short reached
    · cases same
      exact forest.mem r h root _ z (length first short)
        (through first z (Links.follow_mono fewer reached))
    · exact forest.mem s m other first z short (Links.follow_mono fewer reached)
  · rintro s m (same | other) s' m' (same' | other') first second z short short' reached
      reached'
    · cases same
      cases same'
      have equal := forest.once r h root r h root _ _ z (length first short)
        (length second short') (through first z (Links.follow_mono fewer reached))
        (through second z (Links.follow_mono fewer reached'))
      have tails := List.append_cancel_left equal.2.2
      exact ⟨rfl, rfl, (List.cons.inj tails).2⟩
    · cases same
      exact absurd reached (separate s' m' other' second first z short' short reached')
    · cases same'
      exact absurd reached' (separate s m other first second z short short' reached)
    · exact forest.once s m other s' m' other' first second z short short'
        (Links.follow_mono fewer reached) (Links.follow_mono fewer reached')

end Forest

end PiKernel
