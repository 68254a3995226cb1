import Mathlib.Data.List.Nodup
import Mathlib.Data.List.Perm.Basic
import Mathlib.Logic.Function.Basic

/-!
# Arrays of slots as finite maps

An array whose slots are free or hold a key with a value.  With different keys it is a finite
map; a new key goes into the first free slot, or behind the last one.
-/

namespace PiKernel

/-- A free slot, or one that holds a key with a value. -/
abbrev Slot (K V : Type) := Option (K × V)

namespace Slots

variable {K V : Type} {slots : List (Slot K V)} {key other : K} {value : V} {i : Nat}

/-- The number of slots before the first free one. -/
def vacant : List (Slot K V) → Nat
  | [] => 0
  | none :: _ => 0
  | some _ :: rest => vacant rest + 1

/-- A key with a value in the first free slot. -/
def put (slots : List (Slot K V)) (key : K) (value : V) : List (Slot K V) :=
  slots.take (vacant slots) ++ some (key, value) :: slots.drop (vacant slots + 1)

/-- The slots have different keys. -/
def Distinct (slots : List (Slot K V)) : Prop :=
  (slots.filterMap fun slot => slot.map Prod.fst).Nodup

theorem vacant_le : vacant slots ≤ slots.length := by
  induction slots with
  | nil => exact Nat.le_refl 0
  | cons slot rest ih =>
      cases slot with
      | none => exact Nat.zero_le _
      | some entry => exact Nat.succ_le_succ ih

@[simp]
theorem put_used {entry : K × V} {rest : List (Slot K V)} :
    put (some entry :: rest) key value = some entry :: put rest key value :=
  rfl

/-- The entries are the old ones and the new one. -/
theorem put_perm : ((put slots key value).filterMap id).Perm
    ((key, value) :: slots.filterMap id) := by
  induction slots with
  | nil => exact .refl _
  | cons slot rest ih =>
      cases slot with
      | none => exact .refl _
      | some entry => exact (ih.cons entry).trans (.swap ..)

variable [DecidableEq K]

instance : Decidable (Distinct slots) :=
  inferInstanceAs (Decidable (List.Nodup _))

/-- The first slot with a key, and its value. -/
def find (key : K) : List (Slot K V) → Option (Nat × V)
  | [] => none
  | slot :: rest =>
      match slot with
      | some (key', value) =>
          if key' = key then
            some (0, value)
          else
            (find key rest).map fun found => (found.1 + 1, found.2)
      | none => (find key rest).map fun found => (found.1 + 1, found.2)

/-- The finite map that an array of slots stands for. -/
def toMap (slots : List (Slot K V)) (key : K) : Option V :=
  (find key slots).map Prod.snd

theorem find_free {rest : List (Slot K V)} :
    find key (none :: rest) = (find key rest).map fun found => (found.1 + 1, found.2) :=
  rfl

theorem find_same {rest : List (Slot K V)} :
    find key (some (key, value) :: rest) = some (0, value) :=
  if_pos rfl

theorem find_other {rest : List (Slot K V)} (different : other ≠ key) :
    find key (some (other, value) :: rest) =
      (find key rest).map fun found => (found.1 + 1, found.2) :=
  if_neg different

/-- The first slot with a key holds it. -/
theorem getElem?_of_find (found : find key slots = some (i, value)) :
    slots[i]? = some (some (key, value)) := by
  induction slots generalizing i with
  | nil => cases found
  | cons slot rest ih =>
      have later : ∀ {rest' : Option (Nat × V)}, rest' = find key rest →
          (rest'.map fun found => (found.1 + 1, found.2)) = some (i, value) →
            (slot :: rest)[i]? = some (some (key, value)) := by
        rintro _ rfl shifted
        rcases Option.map_eq_some_iff.mp shifted with ⟨⟨j, value'⟩, found', same⟩
        cases same
        exact ih found'
      rcases slot with _ | ⟨key', value'⟩
      · exact later rfl found
      · by_cases same : key' = key
        · subst same
          rw [find_same] at found
          cases found
          rfl
        · rw [find_other same] at found
          exact later rfl found

/-- A key that is not found is in no slot. -/
theorem find_eq_none : find key slots = none ↔ ∀ value, some (key, value) ∉ slots := by
  induction slots with
  | nil => simp [find]
  | cons slot rest ih =>
      rcases slot with _ | ⟨key', value'⟩
      · simp [find_free, ih]
      · by_cases same : key' = key
        · subst same
          constructor
          · intro absent
            rw [find_same] at absent
            cases absent
          · exact fun absent => absurd List.mem_cons_self (absent value')
        · rw [find_other same, Option.map_eq_none_iff, ih]
          simp [Ne.symm same]

/-- With different keys the slot that holds a key is the one that is found. -/
theorem find_iff (distinct : Distinct slots) :
    find key slots = some (i, value) ↔ slots[i]? = some (some (key, value)) := by
  constructor
  · exact getElem?_of_find
  · intro here
    induction slots generalizing i with
    | nil => cases here
    | cons slot rest ih =>
        rcases slot with _ | ⟨key', value'⟩
        · cases i with
          | zero => cases here
          | succ i =>
              rw [find_free, ih distinct here]
              rfl
        · have parts := List.nodup_cons.mp distinct
          cases i with
          | zero =>
              cases here
              exact find_same
          | succ i =>
              have member : key ∈ rest.filterMap fun slot => slot.map Prod.fst :=
                List.mem_filterMap.mpr ⟨_, List.mem_of_getElem? here, rfl⟩
              have different : key' ≠ key := by
                rintro rfl
                exact parts.1 member
              rw [find_other different, ih parts.2 here]
              rfl

theorem find_put_self (absent : find key slots = none) :
    find key (put slots key value) = some (vacant slots, value) := by
  induction slots with
  | nil => exact find_same
  | cons slot rest ih =>
      rcases slot with _ | ⟨key', value'⟩
      · exact find_same
      · by_cases same : key' = key
        · subst same
          rw [find_same] at absent
          cases absent
        · rw [find_other same, Option.map_eq_none_iff] at absent
          rw [put_used, find_other same, ih absent]
          rfl

theorem find_put_other (different : other ≠ key) :
    find other (put slots key value) = find other slots := by
  induction slots with
  | nil => exact find_other different.symm
  | cons slot rest ih =>
      rcases slot with _ | ⟨key', value'⟩
      · exact find_other different.symm
      · by_cases same : key' = other
        · subst same
          rw [put_used, find_same, find_same]
        · rw [put_used, find_other same, find_other same, ih]

/-- A new key is added to the map. -/
theorem toMap_put (absent : toMap slots key = none) :
    toMap (put slots key value) = Function.update (toMap slots) key (some value) := by
  funext other
  by_cases same : other = key
  · subst same
    rw [Function.update_self, toMap, find_put_self (Option.map_eq_none_iff.mp absent)]
    rfl
  · rw [Function.update_of_ne same, toMap, find_put_other same, toMap]

/-- The keys stay different. -/
theorem Distinct.put (distinct : Distinct slots) (absent : find key slots = none) :
    Distinct (put slots key value) := by
  have keys : ∀ slots : List (Slot K V), (slots.filterMap fun slot => slot.map Prod.fst) =
      (slots.filterMap id).map Prod.fst := by
    intro slots
    rw [List.map_filterMap]
    rfl
  have perm : ((Slots.put slots key value).filterMap fun slot => slot.map Prod.fst).Perm
      (key :: slots.filterMap fun slot => slot.map Prod.fst) := by
    rw [keys, keys]
    exact put_perm.map Prod.fst
  rw [Distinct, perm.nodup_iff, List.nodup_cons]
  refine ⟨fun member => ?_, distinct⟩
  rcases List.mem_filterMap.mp member with ⟨slot, here, same⟩
  rcases Option.map_eq_some_iff.mp same with ⟨⟨key', value'⟩, rfl, rfl⟩
  exact find_eq_none.mp absent value' here

end Slots

end PiKernel
