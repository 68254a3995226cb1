import Mathlib.Algebra.Group.Nat.Even
import Mathlib.Tactic.Ring
import Mathlib.Data.Fin.Basic

/-!
# Little-endian fields in byte arrays

C code reads and writes the fields of a structure through a pointer cast into
a byte array.  A field is described here by its offset and its width; the laws
say that a field reads back what was written to it and that writing one field
leaves every disjoint field alone.
-/

namespace PiKernel.Bytes

variable {size : Nat}

/-- The byte at an offset; reads past the end give zero. -/
def byteAt (bytes : Fin size → UInt8) (off : Nat) : UInt8 :=
  if inside : off < size then bytes ⟨off, inside⟩ else 0

/-- The unsigned little-endian number of `width` bytes at `off`. -/
def readLE (bytes : Fin size → UInt8) (off : Nat) : Nat → Nat
  | 0 => 0
  | width + 1 =>
      (byteAt bytes off).toNat + 256 * readLE bytes (off + 1) width

/-- Replace the `width` bytes at `off` by the little-endian digits of `value`. -/
def writeLE (bytes : Fin size → UInt8) (off width value : Nat) :
    Fin size → UInt8 :=
  fun index =>
    if off ≤ index.val ∧ index.val < off + width then
      UInt8.ofNat (value / 256 ^ (index.val - off))
    else
      bytes index

/-- Replace the bytes from `off` on by the given ones. -/
def splice (bytes : Fin size → UInt8) (off : Nat) (data : List UInt8) :
    Fin size → UInt8 :=
  fun index =>
    if off ≤ index.val ∧ index.val < off + data.length then
      data.getD (index.val - off) 0
    else
      bytes index

/-- The `count` bytes from `off` on. -/
def slice (bytes : Fin size → UInt8) (off count : Nat) : List UInt8 :=
  (List.range count).map fun index => byteAt bytes (off + index)

theorem byteAt_writeLE_inside
    {bytes : Fin size → UInt8} {off width value index : Nat}
    (low : off ≤ index) (high : index < off + width) (inside : index < size) :
    byteAt (writeLE bytes off width value) index =
      UInt8.ofNat (value / 256 ^ (index - off)) := by
  simp [byteAt, writeLE, inside, low, high]

theorem byteAt_writeLE_outside
    {bytes : Fin size → UInt8} {off width value index : Nat}
    (outside : index < off ∨ off + width ≤ index) :
    byteAt (writeLE bytes off width value) index = byteAt bytes index := by
  have missed : ¬ (off ≤ index ∧ index < off + width) := by omega
  simp [byteAt, writeLE, missed]

theorem readLE_lt (bytes : Fin size → UInt8) (off width : Nat) :
    readLE bytes off width < 256 ^ width := by
  induction width generalizing off with
  | zero => simp [readLE]
  | succ width ih =>
      have digit := (byteAt bytes off).toNat_lt
      have rest := ih (off + 1)
      simp only [readLE, Nat.pow_succ]
      omega

/-- A field depends on its own bytes only. -/
theorem readLE_congr {left right : Fin size → UInt8} {off width : Nat}
    (agree : ∀ index, off ≤ index → index < off + width →
      byteAt left index = byteAt right index) :
    readLE left off width = readLE right off width := by
  induction width generalizing off with
  | zero => rfl
  | succ width ih =>
      have head := agree off (le_refl off) (by omega)
      have tail : readLE left (off + 1) width = readLE right (off + 1) width := by
        apply ih
        intro index low high
        exact agree index (by omega) (by omega)
      rw [readLE, readLE, head, tail]

theorem readLE_digits {bytes : Fin size → UInt8} {off width value : Nat}
    (digits : ∀ index, index < width →
      byteAt bytes (off + index) = UInt8.ofNat (value / 256 ^ index)) :
    readLE bytes off width = value % 256 ^ width := by
  induction width generalizing off value with
  | zero => simp [readLE, Nat.mod_one]
  | succ width ih =>
      have head : (byteAt bytes off).toNat = value % 256 := by
        have first := digits 0 (by omega)
        simp only [Nat.add_zero, Nat.pow_zero, Nat.div_one] at first
        rw [first]
        simp
      have tail : readLE bytes (off + 1) width = value / 256 % 256 ^ width := by
        apply ih
        intro index inside
        have digit := digits (index + 1) (by omega)
        rw [Nat.pow_succ, Nat.mul_comm, ← Nat.div_div_eq_div_mul] at digit
        rw [← digit]
        congr 1
        omega
      rw [readLE, head, tail, Nat.pow_succ, Nat.mul_comm (256 ^ width), Nat.mod_mul]

/-- A field reads back what was written to it. -/
theorem readLE_writeLE_same {bytes : Fin size → UInt8} {off width value : Nat}
    (fits : off + width ≤ size) :
    readLE (writeLE bytes off width value) off width = value % 256 ^ width := by
  apply readLE_digits
  intro index inside
  rw [byteAt_writeLE_inside (by omega) (by omega) (by omega)]
  congr 3
  omega

/-- Only the low digits of a number are written. -/
theorem writeLE_mod {bytes : Fin size → UInt8} {off width value : Nat} :
    writeLE bytes off width (value % 256 ^ width) = writeLE bytes off width value := by
  funext index
  by_cases inside : off ≤ index.val ∧ index.val < off + width
  · have split : 256 ^ width =
        256 ^ (index.val - off) * 256 ^ (width - (index.val - off)) := by
      rw [← Nat.pow_add]
      congr 1
      omega
    have digit : 256 ∣ 256 ^ (width - (index.val - off)) :=
      dvd_pow_self 256 (by omega)
    simp only [writeLE, if_pos inside]
    rw [split, Nat.mod_mul_right_div_self, ← UInt8.toNat_inj, UInt8.toNat_ofNat',
      UInt8.toNat_ofNat']
    exact Nat.mod_mod_of_dvd _ digit
  · simp only [writeLE, if_neg inside]

/-- Writing a field leaves every disjoint field alone. -/
theorem readLE_writeLE_disjoint
    {bytes : Fin size → UInt8} {off width value off' width' : Nat}
    (disjoint : off' + width' ≤ off ∨ off + width ≤ off') :
    readLE (writeLE bytes off width value) off' width' =
      readLE bytes off' width' := by
  apply readLE_congr
  intro index low high
  exact byteAt_writeLE_outside (by omega)

theorem byteAt_splice_inside {bytes : Fin size → UInt8} {off index : Nat} {data : List UInt8}
    (inside : index < data.length) (fits : off + data.length ≤ size) :
    byteAt (splice bytes off data) (off + index) = data[index] := by
  have low : off + index < size := by omega
  simp [byteAt, splice, low, inside]

theorem byteAt_splice_outside {bytes : Fin size → UInt8} {off index : Nat} {data : List UInt8}
    (outside : index < off ∨ off + data.length ≤ index) :
    byteAt (splice bytes off data) index = byteAt bytes index := by
  have missed : ¬ (off ≤ index ∧ index < off + data.length) := by omega
  simp [byteAt, splice, missed]

theorem slice_congr {left right : Fin size → UInt8} {off count : Nat}
    (agree : ∀ index, off ≤ index → index < off + count →
      byteAt left index = byteAt right index) :
    slice left off count = slice right off count := by
  apply List.map_congr_left
  intro index member
  have inside := List.mem_range.mp member
  exact agree (off + index) (by omega) (by omega)

/-- What was written is read back. -/
theorem slice_splice_same {bytes : Fin size → UInt8} {off : Nat} {data : List UInt8}
    (fits : off + data.length ≤ size) : slice (splice bytes off data) off data.length = data := by
  apply List.ext_getElem
  · simp [slice]
  · intro index low high
    simp only [slice, List.getElem_map, List.getElem_range]
    exact byteAt_splice_inside high fits

theorem slice_splice_disjoint {bytes : Fin size → UInt8} {off off' count : Nat}
    {data : List UInt8} (disjoint : off' + count ≤ off ∨ off + data.length ≤ off') :
    slice (splice bytes off data) off' count = slice bytes off' count := by
  apply slice_congr
  intro index low high
  exact byteAt_splice_outside (by omega)

theorem slice_append {bytes : Fin size → UInt8} {off first second : Nat} :
    slice bytes off (first + second) =
      slice bytes off first ++ slice bytes (off + first) second := by
  simp only [slice, List.range_add, List.map_append, List.map_map, Function.comp_def,
    Nat.add_assoc]

end PiKernel.Bytes
