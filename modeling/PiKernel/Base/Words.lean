import Mathlib.Data.List.TakeWhile

/-!
# Words and scanning loops

The words of a list are its longest parts without a separator.  A scanning loop runs along an
array, and fails where it reads behind the end.
-/

namespace PiKernel

variable {α : Type}

/-! ## Words -/

section Words

variable [DecidableEq α]

/-- The nonempty parts of a list between separators. -/
def words (sep : α) (list : List α) : List (List α) :=
  (list.splitOn sep).filter fun word => !word.isEmpty

variable {sep : α} {list rest : List α}

@[simp]
theorem words_nil : words sep [] = [] :=
  rfl

@[simp]
theorem words_cons_sep : words sep (sep :: rest) = words sep rest := by
  have first := List.splitOn_append_cons_self_of_not_mem (List.not_mem_nil (a := sep)) rest
  rw [List.nil_append] at first
  rw [words, first]
  rfl

/-- Separators at the front do not matter. -/
theorem words_dropWhile : words sep (list.dropWhile (· == sep)) = words sep list := by
  induction list with
  | nil => rfl
  | cons head rest ih =>
      by_cases same : head = sep
      · subst same
        rw [List.dropWhile_cons_of_pos (by simp), ih, words_cons_sep]
      · rw [List.dropWhile_cons_of_neg (by simpa using same)]

/-- The first word goes up to the next separator. -/
theorem words_cons {head : α} (other : head ≠ sep) :
    words sep (head :: rest) = (head :: rest).takeWhile (· != sep) ::
      words sep ((head :: rest).dropWhile (· != sep)) := by
  generalize whole : head :: rest = list
  have nonempty : list.takeWhile (· != sep) ≠ [] := by
    rw [← whole, List.takeWhile_cons_of_pos (by simpa using other)]
    exact List.cons_ne_nil _ _
  have within : sep ∉ list.takeWhile (· != sep) := by
    intro member
    have holds := List.mem_takeWhile_imp member
    simp at holds
  have parts := List.takeWhile_append_dropWhile (p := (· != sep)) (l := list)
  cases last : list.dropWhile (· != sep) with
  | nil =>
      rw [last, List.append_nil] at parts
      rw [parts] at within nonempty ⊢
      rw [words, List.splitOn_eq_singleton within]
      simpa using nonempty
  | cons stop rest =>
      have stops : stop = sep := by
        have head := List.head_dropWhile_not (· != sep) (l := list) (by simp [last])
        simpa [last] using head
      subst stops
      rw [last] at parts
      have whole : words stop list = words stop (list.takeWhile (· != stop) ++ stop :: rest) :=
        congrArg (words stop) parts.symm
      rw [whole, words, List.splitOn_append_cons_self_of_not_mem within, words_cons_sep,
        List.filter_cons_of_pos (by simpa using nonempty), words]

theorem words_eq_nil : words sep list = [] ↔ list.dropWhile (· == sep) = [] := by
  constructor
  · intro none
    rw [← words_dropWhile] at none
    cases left : list.dropWhile (· == sep) with
    | nil => rfl
    | cons head rest =>
        have other : head ≠ sep := by
          have holds := List.head_dropWhile_not (· == sep) (l := list) (by simp [left])
          simpa [left] using holds
        rw [left, words_cons other] at none
        cases none
  · intro none
    rw [← words_dropWhile, none, words_nil]

end Words

/-! ## Scanning -/

/-- `while (keep(bytes[i])) i++;` -/
def scan (keep : α → Bool) (bytes : List α) (i : Nat) : Option Nat :=
  if inside : i < bytes.length then
    if keep bytes[i] then
      scan keep bytes (i + 1)
    else
      some i
  else
    none
termination_by bytes.length - i

/-- `count` elements from an index on, all of which are in the array. -/
def fetch (bytes : List α) (i count : Nat) : Option (List α) :=
  if i + count ≤ bytes.length then
    some ((bytes.drop i).take count)
  else
    none

variable {keep : α → Bool} {list : List α} {stop : α} {i count : Nat}

/-- A loop that ends at the last element of the array, if not before. -/
theorem scan_eq (last : keep stop = false) (inside : i ≤ list.length) :
    scan keep (list ++ [stop]) i = some (i + ((list.drop i).takeWhile keep).length) := by
  generalize left : list.length - i = k
  induction k generalizing i with
  | zero =>
      have here : i = list.length := by omega
      subst here
      rw [scan]
      simp [last]
  | succ k ih =>
      have before : i < list.length := by omega
      rw [scan, dif_pos (by simp; omega), List.getElem_append_left before,
        List.drop_eq_getElem_cons before]
      by_cases keeps : keep list[i] = true
      · rw [if_pos keeps, List.takeWhile_cons_of_pos keeps, ih before (by omega),
          List.length_cons]
        exact congrArg some (Nat.succ_add_eq_add_succ ..)
      · rw [if_neg keeps, List.takeWhile_cons_of_neg keeps]
        rfl

theorem fetch_eq (inside : i + count ≤ list.length) :
    fetch (list ++ [stop]) i count = some ((list.drop i).take count) := by
  rw [fetch, if_pos (by simp; omega), List.drop_append_of_le_length (by omega),
    List.take_append_of_le_length (by simp; omega)]

end PiKernel
