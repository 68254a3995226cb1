import PiKernel.Base.Words
import PiKernel.Fs.Directory
import PiKernel.Sys.Pointers
import Mathlib.Data.List.DropRight

/-!
# Path elements

`skipelem` on a string in memory.  It reads the string up to the NUL at most, and calling it
again and again gives the parts of the path between slashes.
-/

namespace PiKernel.Fs

open PiKernel.Sys

variable {path rest elem name : List UInt8} {i : Nat}

/-! ## Elements of a path -/

/-- The nonempty parts of a path between slashes, cut to `DIRSIZ` bytes. -/
def components (path : List UInt8) : List (List UInt8) :=
  (words slash path).map fun part => part.take DIRSIZ

theorem skipelem_none : skipelem path = none ↔ components path = [] := by
  rw [components, List.map_eq_nil_iff, words_eq_nil, skipelem]
  cases path.dropWhile (· == slash) <;> simp

/-- The first element, and the path behind it. -/
theorem skipelem_some (next : skipelem path = some (rest, elem)) :
    components path = elem :: components rest ∧ rest <:+ path ∧ rest.length < path.length ∧
      (rest = [] ↔ components rest = []) := by
  rw [skipelem] at next
  cases skipped : path.dropWhile (· == slash) with
  | nil =>
      rw [skipped] at next
      cases next
  | cons head tail =>
      rw [skipped] at next
      cases next
      have other : head ≠ slash := by
        have holds := List.head_dropWhile_not (· == slash) (l := path) (by simp [skipped])
        simpa [skipped] using holds
      have suffixed : head :: tail <:+ path := by
        rw [← skipped]
        exact List.dropWhile_suffix _
      have shorter : ((head :: tail).dropWhile (· != slash)).length < (head :: tail).length := by
        rw [List.dropWhile_cons_of_pos (by simpa using other)]
        exact Nat.lt_succ_of_le (List.dropWhile_suffix _).length_le
      refine ⟨?_, ?_, ?_, ?_⟩
      · rw [components, ← words_dropWhile, skipped, words_cons other, List.map_cons, components,
          words_dropWhile]
      · exact ((List.dropWhile_suffix _).trans (List.dropWhile_suffix _)).trans suffixed
      · exact ((List.dropWhile_suffix _).length_le.trans_lt shorter).trans_le
          suffixed.length_le
      · rw [components, List.map_eq_nil_iff, words_eq_nil, List.dropWhile_idempotent]

/-- An element is the name that is looked up. -/
theorem cut_elem (nul : ∀ byte ∈ path, byte ≠ 0) (next : skipelem path = some (rest, elem)) :
    cut elem = elem := by
  rw [skipelem] at next
  cases skipped : path.dropWhile (· == slash) with
  | nil =>
      rw [skipped] at next
      cases next
  | cons head tail =>
      rw [skipped] at next
      cases next
      rw [cut, List.take_take, Nat.min_self, List.takeWhile_eq_self_iff]
      intro byte member
      have inside : byte ∈ path := by
        apply (List.dropWhile_suffix (· == slash)).subset
        rw [skipped]
        exact (List.takeWhile_prefix _).subset (List.mem_of_mem_take member)
      simpa using nul byte inside

/-! ## The string in memory -/

/-- The assignments of `skipelem` to `name`, from `len` bytes at `s` on. -/
def copyElem (bytes : List UInt8) (s : Nat) (len : Int) (name : List UInt8) :
    Option (List UInt8) :=
  if DIRSIZ ≤ len then
    fetch bytes s DIRSIZ
  else
    (fetch bytes s (toUnsigned len)).map fun elem => elem ++ 0 :: name.drop (elem.length + 1)

/--
Copy the next path element from path into name.  The string and its NUL are an array, which
must contain all bytes that are read; `name` has `DIRSIZ` bytes.
-/
def skipelemAt (bytes : List UInt8) (path : Nat) (name : List UInt8) :
    Option (Option Nat × List UInt8) := do
  let path ← scan (· == slash) bytes path
  let byte ← bytes[path]?
  if byte = 0 then
    return (none, name)
  else
    let s := path
    let path ← scan (fun byte => byte != slash && byte != 0) bytes path
    let len := toSigned 32 (path - s)
    let name ← copyElem bytes s len name
    let path ← scan (· == slash) bytes path
    return (some path, name)

/-- The elements that at most so many calls find. -/
def elements (bytes : List UInt8) : Nat → Nat → List UInt8 → Option (List (List UInt8))
  | 0, _, _ => none
  | count + 1, path, name => do
      match ← skipelemAt bytes path name with
      | (none, _) => return []
      | (some path, name) =>
          let rest ← elements bytes count path name
          return cut name :: rest

theorem takeWhile_congr {keep keep' : UInt8 → Bool} {bytes : List UInt8}
    (same : ∀ byte ∈ bytes, keep' byte = keep byte) :
    bytes.takeWhile keep' = bytes.takeWhile keep := by
  induction bytes with
  | nil => rfl
  | cons byte rest ih =>
      rw [List.takeWhile_cons, List.takeWhile_cons, same byte List.mem_cons_self,
        ih fun byte member => same byte (List.mem_cons_of_mem _ member)]

theorem drop_length_takeWhile {keep : UInt8 → Bool} {bytes : List UInt8} :
    bytes.drop (bytes.takeWhile keep).length = bytes.dropWhile keep := by
  have parts := List.takeWhile_append_dropWhile (p := keep) (l := bytes)
  have left : (bytes.takeWhile keep ++ bytes.dropWhile keep).drop (bytes.takeWhile keep).length =
      bytes.dropWhile keep := List.drop_left
  rwa [parts] at left

section Memory

variable (nul : ∀ byte ∈ path, byte ≠ 0) (inside : i ≤ path.length)

include inside

/-- A loop of `skipelem` stops at the NUL, if not before. -/
theorem scan_path {keep : UInt8 → Bool} (stops : keep 0 = false) :
    ∃ j, scan keep (path ++ [0]) i = some j ∧ i ≤ j ∧ j ≤ path.length ∧
      j - i = ((path.drop i).takeWhile keep).length ∧
        path.drop j = (path.drop i).dropWhile keep := by
  refine ⟨_, scan_eq stops inside, Nat.le_add_right .., ?_, Nat.add_sub_cancel_left .., ?_⟩
  · have length := (List.takeWhile_prefix keep (l := path.drop i)).length_le
    rw [List.length_drop] at length
    omega
  · rw [← List.drop_drop, drop_length_takeWhile]

include nul

/-- The name is copied, with a NUL if there is room for it. -/
theorem copied_name {len : Nat} (ends : i + len ≤ path.length) (size : name.length = DIRSIZ) :
    ∃ name', copyElem (path ++ [0]) i len name = some name' ∧
      cut name' = ((path.drop i).take len).take DIRSIZ ∧ name'.length = DIRSIZ := by
  have nonzero : ∀ byte ∈ ((path.drop i).take len).take DIRSIZ, byte ≠ 0 :=
    fun byte member =>
      nul byte (List.mem_of_mem_drop (List.mem_of_mem_take (List.mem_of_mem_take member)))
  have length : ((path.drop i).take len).length = len := by
    rw [List.length_take, List.length_drop]
    omega
  by_cases long : DIRSIZ ≤ len
  · have all : ((path.drop i).take len).take DIRSIZ = (path.drop i).take DIRSIZ := by
      rw [List.take_take, Nat.min_eq_left long]
    rw [copyElem, if_pos (by exact_mod_cast long), fetch_eq (by omega)]
    refine ⟨_, rfl, ?_, ?_⟩
    · rw [all] at nonzero ⊢
      rw [cut, List.take_take, Nat.min_self, List.takeWhile_eq_self_iff]
      simpa using nonzero
    · rw [List.length_take, List.length_drop]
      omega
  · have few : toUnsigned (len : Int) = len := by
      rw [toUnsigned]
      simp only [DIRSIZ] at long
      omega
    have short : ((path.drop i).take len).take DIRSIZ = (path.drop i).take len :=
      List.take_of_length_le (by omega)
    rw [copyElem, if_neg (by exact_mod_cast long), few, fetch_eq ends]
    refine ⟨_, rfl, ?_, ?_⟩
    · rw [short] at nonzero ⊢
      have room : DIRSIZ - ((path.drop i).take len).length = DIRSIZ - len - 1 + 1 := by omega
      rw [cut, List.take_append, List.take_of_length_le (by omega), room, List.take_succ_cons,
        List.takeWhile_append_of_pos (by simpa using nonzero)]
      simp
    · rw [List.length_append, length, List.length_cons, List.length_drop, size]
      omega

/-- Every byte that `skipelem` reads is one of the string, and it computes the next element. -/
theorem skipelemAt_eq (small : path.length < 2 ^ 31) (size : name.length = DIRSIZ) :
    match skipelem (path.drop i) with
    | none => skipelemAt (path ++ [0]) i name = some (none, name)
    | some (rest, elem) =>
        ∃ j name', skipelemAt (path ++ [0]) i name = some (some j, name') ∧ i < j ∧
          j ≤ path.length ∧ path.drop j = rest ∧ cut name' = elem ∧ name'.length = DIRSIZ := by
  have scanned : ∃ s, scan (· == slash) (path ++ [0]) i = some s ∧ _ :=
    scan_path inside (by decide)
  rcases scanned with
    ⟨s, skips, first, within, _, left⟩
  rw [skipelem, ← left]
  cases tail : path.drop s with
  | nil =>
      have here : s = path.length := by
        have length := congrArg List.length tail
        rw [List.length_drop, List.length_nil] at length
        omega
      simp [skipelemAt, skips, here]
  | cons head rest =>
      have before : s < path.length := by
        have length := congrArg List.length tail
        rw [List.length_drop, List.length_cons] at length
        omega
      have here : path[s] = head := by
        rw [List.drop_eq_getElem_cons before] at tail
        exact (List.cons.inj tail).1
      have nonzero : head ≠ 0 := by
        rw [← here]
        exact nul _ (List.getElem_mem before)
      have scanned : ∃ j, scan (fun byte => byte != slash && byte != 0) (path ++ [0]) s = some j ∧
          _ := scan_path (Nat.le_of_lt before) (by decide)
      rcases scanned with ⟨e, copies, second, ends, length, past⟩
      have same : ∀ byte ∈ path.drop s, (byte != slash && byte != 0) = (byte != slash) := by
        intro byte member
        have here := nul byte (List.mem_of_mem_drop member)
        simp [here]
      have scanned : ∃ j, scan (· == slash) (path ++ [0]) e = some j ∧ _ :=
        scan_path ends (by decide)
      rcases scanned with ⟨j, skips', third, last, _, behind⟩
      rw [takeWhile_congr same] at length
      have past : path.drop e = (path.drop s).dropWhile (· != slash) := by
        rw [← drop_length_takeWhile, ← length, List.drop_drop, Nat.add_sub_cancel' second]
      have part : (path.drop s).take (e - s) = (path.drop s).takeWhile (· != slash) := by
        rw [length]
        exact (List.prefix_iff_eq_take.mp (List.takeWhile_prefix _)).symm
      have some_byte : s < e := by
        have other : head ≠ slash := by
          have holds := List.head_dropWhile_not (· == slash) (l := path.drop i)
            (by rw [← left, tail]; exact List.cons_ne_nil _ _)
          simpa [← left, tail] using holds
        rw [tail, List.takeWhile_cons_of_pos (by simpa using other), List.length_cons] at length
        omega
      have signed : toSigned 32 (e - s) = ((e - s : Nat) : Int) := by
        rw [toSigned, Nat.mod_eq_of_lt (by omega), if_pos (by omega)]
      have whole : s + (e - s) ≤ path.length := by omega
      rcases copied_name nul (Nat.le_of_lt before) whole size with ⟨name', copied, cuts, size'⟩
      refine ⟨j, name', ?_, by omega, last, ?_, ?_, size'⟩
      · have byte : (path ++ [0])[s]? = some head := by
          rw [List.getElem?_append_left before, List.getElem?_eq_getElem before, here]
        rw [skipelemAt]
        simp only [skips, byte, Option.bind_eq_bind, Option.bind_some, if_neg nonzero, copies,
          signed, copied, skips']
        rfl
      · rw [behind, past, tail]
      · rw [cuts, part, tail]

/-- The calls end at the NUL, and have found the components of the path. -/
theorem elements_eq {count : Nat} (small : path.length < 2 ^ 31) (size : name.length = DIRSIZ)
    (many : path.length < i + count) :
    elements (path ++ [0]) count i name = some (components (path.drop i)) := by
  induction count generalizing i name with
  | zero => omega
  | succ count ih =>
      have call := skipelemAt_eq nul inside small size
      rw [elements]
      cases next : skipelem (path.drop i) with
      | none =>
          rw [next] at call
          simp only [call, Option.bind_eq_bind, Option.bind_some, skipelem_none.mp next]
          rfl
      | some found =>
          rcases found with ⟨rest, elem⟩
          rw [next] at call
          rcases call with ⟨j, name', result, later, last, behind, cuts, size'⟩
          simp only [result, Option.bind_eq_bind, Option.bind_some, ih last size' (by omega),
            (skipelem_some next).1, cuts, behind]
          rfl

end Memory

end PiKernel.Fs
