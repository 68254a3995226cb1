import PiKernel.Base.Slots
import PiKernel.Fs.Inodes
import Mathlib.Data.List.TakeWhile

/-!
# Directories as finite maps

The contents of a directory are an array of slots for entries.  A name is what `strncmp`
compares of it, its first `DIRSIZ` bytes up to a NUL.
-/

namespace PiKernel.Fs

variable {bytes new name : List UInt8} {de : Dirent} {inum k : Nat}

/-! ## Names -/

theorem cut_length : (cut name).length ≤ DIRSIZ :=
  (List.takeWhile_prefix _).length_le.trans (List.length_take_le ..)

theorem mem_cut {byte : UInt8} (member : byte ∈ cut name) : byte ≠ 0 := by
  have holds := List.mem_takeWhile_imp member
  simpa using holds

theorem takeWhile_append_zeros {names : List UInt8} {count : Nat}
    (nonzero : ∀ byte ∈ names, byte ≠ 0) :
    (names ++ List.replicate count 0).takeWhile (· != 0) = names := by
  rw [List.takeWhile_append_of_pos (by simpa using nonzero)]
  cases count with
  | zero => simp
  | succ count => simp [List.replicate_succ]

/-- A name that `strncpy` has stored is the same name. -/
theorem cut_stored :
    cut (cut name ++ List.replicate (DIRSIZ - (cut name).length) 0) = cut name := by
  have length : (cut name ++ List.replicate (DIRSIZ - (cut name).length) 0).length = DIRSIZ := by
    have bound : (cut name).length ≤ DIRSIZ := cut_length
    rw [List.length_append, List.length_replicate]
    omega
  rw [cut, List.take_of_length_le length.le]
  exact takeWhile_append_zeros fun _ => mem_cut

/-- `namecmp` compares names. -/
theorem sameName_iff {other : List UInt8} : sameName name other = true ↔ cut name = cut other := by
  rw [sameName, beq_iff_eq]

/-! ## Slots -/

/-- The slot that an entry fills. -/
def Dirent.slot (de : Dirent) : Slot (List UInt8) Nat :=
  if de.inum = 0 then none else some (cut de.name, de.inum)

/-- The entry at an offset, in slots. -/
def entryAt (bytes : List UInt8) (k : Nat) : Dirent :=
  Dirent.decode ((bytes.drop (k * DIRENT)).take DIRENT)

/-- The slots of a directory. -/
def dirSlots (bytes : List UInt8) : List (Slot (List UInt8) Nat) :=
  (List.range (bytes.length / DIRENT)).map fun k => (entryAt bytes k).slot

theorem length_dirSlots : (dirSlots bytes).length = bytes.length / DIRENT := by
  simp [dirSlots]

theorem getElem?_dirSlots (inside : k < bytes.length / DIRENT) :
    (dirSlots bytes)[k]? = some (entryAt bytes k).slot := by
  simp [dirSlots, inside]

theorem drop_dirSlots (inside : k < bytes.length / DIRENT) :
    (dirSlots bytes).drop k = (entryAt bytes k).slot :: (dirSlots bytes).drop (k + 1) := by
  have bound : k < (dirSlots bytes).length := by rwa [length_dirSlots]
  rw [List.drop_eq_getElem_cons bound]
  congr 1
  simp [dirSlots]

theorem entries_eq (whole : DIRENT ∣ bytes.length) :
    entries bytes.length = bytes.length / DIRENT := by
  rcases whole with ⟨count, length⟩
  rw [entries, length]
  simp only [DIRENT, DIRSIZ]
  omega

/-- A slot is read in one piece. -/
theorem length_entry (whole : DIRENT ∣ bytes.length) (inside : k < bytes.length / DIRENT) :
    ((bytes.drop (k * DIRENT)).take DIRENT).length = DIRENT := by
  rcases whole with ⟨count, length⟩
  rw [List.length_take, List.length_drop]
  rw [length] at inside ⊢
  simp only [DIRENT, DIRSIZ] at inside ⊢
  omega

/-! ## A new entry -/

theorem length_bytes_dirent : de.bytes.length = DIRENT := by
  have bound : (cut de.name).length ≤ DIRSIZ := cut_length
  simp only [Dirent.bytes, List.length_cons, List.length_append, List.length_replicate, DIRENT]
  omega

/-- The entry that `dirlink` writes. -/
theorem decode_bytes (positive : 0 < inum) (fits : inum < 2 ^ 16) :
    (Dirent.decode (Dirent.bytes { inum := inum, name := name })).slot =
      some (cut name, inum) := by
  have number : (UInt8.ofNat inum).toNat + 256 * (UInt8.ofNat (inum / 256)).toNat = inum := by
    simp only [UInt8.toNat_ofNat']
    omega
  have decoded : (Dirent.decode (Dirent.bytes { inum := inum, name := name })).inum = inum :=
    number
  rw [Dirent.slot, if_neg (by omega), decoded]
  exact congrArg (fun key => some (key, inum)) cut_stored

section Write

variable {j : Nat} (whole : DIRENT ∣ bytes.length) (inside : k ≤ bytes.length / DIRENT)
  (length : new.length = DIRENT)

include whole inside

omit whole in
/-- The bytes before the entry are there. -/
theorem length_before : (bytes.take (k * DIRENT)).length = k * DIRENT := by
  rw [List.length_take, Nat.min_eq_left]
  exact (Nat.mul_le_mul_right DIRENT inside).trans (Nat.div_mul_le_self ..)

include length

theorem length_write :
    (bytes.take (k * DIRENT) ++ new ++ bytes.drop (k * DIRENT + new.length)).length =
      max (bytes.length / DIRENT) (k + 1) * DIRENT := by
  have before := length_before inside
  rw [List.length_append, List.length_append, before, List.length_drop, length]
  rcases whole with ⟨count, total⟩
  rw [total] at inside ⊢
  simp only [DIRENT, DIRSIZ] at inside ⊢
  omega

omit whole in
theorem entryAt_write : entryAt
    (bytes.take (k * DIRENT) ++ new ++ bytes.drop (k * DIRENT + new.length)) j =
      if j = k then Dirent.decode new else entryAt bytes j := by
  have before := length_before inside
  rw [entryAt, List.append_assoc, length]
  rcases Nat.lt_trichotomy j k with less | rfl | greater
  · have room : j * DIRENT + DIRENT ≤ k * DIRENT := by
      rw [← Nat.succ_mul]
      exact Nat.mul_le_mul_right DIRENT less
    have rest : DIRENT ≤ ((bytes.take (k * DIRENT)).drop (j * DIRENT)).length := by
      rw [List.length_drop, before]
      omega
    rw [if_neg less.ne, List.drop_append_of_le_length (by omega),
      List.take_append_of_le_length rest, List.drop_take, List.take_take,
      Nat.min_eq_left (by omega), entryAt]
  · rw [if_pos rfl, List.drop_left' before, List.take_left' length]
  · have room : k * DIRENT + DIRENT ≤ j * DIRENT := by
      rw [← Nat.succ_mul]
      exact Nat.mul_le_mul_right DIRENT greater
    rw [if_neg greater.ne', List.drop_append, before, List.drop_eq_nil_of_le (by omega),
      List.nil_append, List.drop_append, length, List.drop_eq_nil_of_le (by omega),
      List.nil_append, List.drop_drop, entryAt]
    congr 3
    omega

/-- One slot is filled, or one is appended. -/
theorem dirSlots_write :
    dirSlots (bytes.take (k * DIRENT) ++ new ++ bytes.drop (k * DIRENT + new.length)) =
      (dirSlots bytes).take k ++ (Dirent.decode new).slot :: (dirSlots bytes).drop (k + 1) := by
  have count : (dirSlots bytes).length = bytes.length / DIRENT := length_dirSlots
  have before : ((dirSlots bytes).take k).length = k := by
    rw [List.length_take, count, Nat.min_eq_left inside]
  apply List.ext_getElem
  · rw [length_dirSlots, length_write whole inside length, Nat.mul_div_cancel _ (by decide),
      List.length_append, before, List.length_cons, List.length_drop, count]
    omega
  · intro j first second
    have left : ∀ {bytes' : List UInt8} (bound : j < (dirSlots bytes').length),
        (dirSlots bytes')[j] = (entryAt bytes' j).slot := by
      intro bytes' bound
      simp [dirSlots]
    rw [left first, entryAt_write inside length]
    rcases Nat.lt_trichotomy j k with less | rfl | greater
    · rw [if_neg less.ne, List.getElem_append_left (by omega), List.getElem_take, left]
    · rw [if_pos rfl, List.getElem_append_right (by omega)]
      simp [before]
    · rw [if_neg greater.ne', List.getElem_append_right (by omega)]
      have place : j - ((dirSlots bytes).take k).length = (j - (k + 1)) + 1 := by omega
      simp only [place, List.getElem_cons_succ, List.getElem_drop]
      have index : k + 1 + (j - (k + 1)) = j := by omega
      simp only [index]
      rw [left]

end Write

end PiKernel.Fs
