import PiKernel.Base.Fields
import PiKernel.Base.Params
import Mathlib.Data.Fintype.Pi
import Mathlib.Data.List.FinRange
import Mathlib.Data.Nat.Bitwise

/-!
# The on-disk format

The structures of `inc/fs.h` and how the kernel reads and writes them in the
data of a buffer: the dinodes of an inode block, the bits of a bitmap block, the
entries of an indirect block.
-/

namespace PiKernel.Fs

open PiKernel.Bytes

def NDIRECT : Nat := 12
def NINDIRECT : Nat := 128
def MAXFILE : Nat := NDIRECT + NINDIRECT

instance (priority := high) neZero_addrs : NeZero (NDIRECT + 1) :=
  ⟨Nat.succ_ne_zero _⟩

/-- Inodes per block. -/
def IPB : Nat := 8

/-- Bitmap bits per block. -/
def BPB : Nat := BSIZE * 8

def T_DIR : UInt16 := 1
def T_FILE : UInt16 := 2
def T_DEV : UInt16 := 3

structure Superblock where
  /-- Size of file system image (blocks). -/
  size : Nat
  /-- Number of data blocks. -/
  nblocks : Nat
  /-- Number of inodes. -/
  ninodes : Nat
  /-- Number of log blocks. -/
  nlog : Nat
  /-- Block number of first log block. -/
  logstart : Nat
  /-- Block number of first inode block. -/
  inodestart : Nat
  /-- Block number of first free map block. -/
  bmapstart : Nat

namespace Superblock

/-- Block containing inode `inum`. -/
def IBLOCK (sb : Superblock) (inum : Nat) : Nat := inum / IPB + sb.inodestart

/-- Block of free map containing bit for block `b`. -/
def BBLOCK (sb : Superblock) (b : Nat) : Nat := b / BPB + sb.bmapstart

/-- The first field of the structure is at offset 0, and all are `uint32_t`. -/
def read (data : Block) : Superblock where
  size := readLE data 0 4
  nblocks := readLE data 4 4
  ninodes := readLE data 8 4
  nlog := readLE data 12 4
  logstart := readLE data 16 4
  inodestart := readLE data 20 4
  bmapstart := readLE data 24 4

end Superblock

/-! ## Dinodes -/

/-- The fields of an inode besides its addresses. -/
structure Meta where
  type : UInt16
  major : UInt16
  minor : UInt16
  nlink : UInt16
  size : UInt32
  deriving DecidableEq

/-- On-disk inode structure. -/
structure Dinode extends Meta where
  /-- Data block addresses. -/
  addrs : Fin (NDIRECT + 1) → UInt32
  deriving DecidableEq

namespace Dinode

/-- `addrs[n]`. -/
def addr (d : Dinode) (n : Nat) : Nat :=
  if inside : n < NDIRECT + 1 then (d.addrs ⟨n, inside⟩).toNat else 0

/-- `addrs[n] = a`. -/
def setAddr (d : Dinode) (n a : Nat) : Dinode :=
  { d with addrs := fun j => if j.val = n then UInt32.ofNat a else d.addrs j }

/-- The structure at offset `base`, 64 bytes long. -/
def fields (d : Dinode) (base : Nat) : List Field :=
  ⟨base, 2, d.type.toNat⟩ :: ⟨base + 2, 2, d.major.toNat⟩ ::
    ⟨base + 4, 2, d.minor.toNat⟩ :: ⟨base + 6, 2, d.nlink.toNat⟩ ::
    ⟨base + 8, 4, d.size.toNat⟩ ::
    (List.finRange (NDIRECT + 1)).map fun j =>
      ⟨base + 12 + 4 * j.val, 4, (d.addrs j).toNat⟩

/-- `(struct dinode *)data + k`. -/
def read (data : Block) (k : Nat) : Dinode where
  type := UInt16.ofNat (readLE data (64 * k) 2)
  major := UInt16.ofNat (readLE data (64 * k + 2) 2)
  minor := UInt16.ofNat (readLE data (64 * k + 4) 2)
  nlink := UInt16.ofNat (readLE data (64 * k + 6) 2)
  size := UInt32.ofNat (readLE data (64 * k + 8) 4)
  addrs j := UInt32.ofNat (readLE data (64 * k + 12 + 4 * j.val) 4)

/-- All fields of the structure are assigned. -/
def write (data : Block) (k : Nat) (d : Dinode) : Block :=
  writeFields data (d.fields (64 * k))

@[ext]
theorem ext' {d e : Dinode} (fields : d.toMeta = e.toMeta)
    (addrs : ∀ j, d.addrs j = e.addrs j) : d = e := by
  cases d
  cases e
  simp only at fields addrs
  rw [fields, funext addrs]

@[simp]
theorem addr_setAddr_same {d : Dinode} {n a : Nat} (inside : n < NDIRECT + 1)
    (fits : a < 2 ^ 32) : (d.setAddr n a).addr n = a := by
  simpa [addr, setAddr, inside] using fits

@[simp]
theorem addr_setAddr_other {d : Dinode} {n m a : Nat} (other : m ≠ n) :
    (d.setAddr n a).addr m = d.addr m := by
  simp [addr, setAddr, other]

theorem fields_apart (d : Dinode) (base : Nat) :
    (d.fields base).Pairwise Field.Apart := by
  have row : ((List.finRange (NDIRECT + 1)).map fun j =>
      (⟨base + 12 + 4 * j.val, 4, (d.addrs j).toNat⟩ : Field)).Pairwise
        Field.Apart := by
    rw [List.pairwise_map]
    apply (List.pairwise_lt_finRange _).imp
    intro i j below
    have below' : i.val < j.val := below
    exact Or.inl (by simp only; omega)
  simp only [fields, List.pairwise_cons, List.mem_cons, List.mem_map, Field.Apart,
    forall_eq_or_imp, forall_exists_index, and_imp]
  refine ⟨?_, ?_, ?_, ?_, ?_, row⟩ <;> simp <;> omega

theorem fields_bounds {d : Dinode} {base : Nat} {f : Field}
    (member : f ∈ d.fields base) : base ≤ f.off ∧ f.off + f.width ≤ base + 64 := by
  simp only [fields, List.mem_cons, List.mem_map] at member
  rcases member with rfl | rfl | rfl | rfl | rfl | ⟨j, _, rfl⟩
  · simp
  · simp
  · simp
  · simp
  · simp
  · have below : j.val < 13 := j.isLt
    simp only
    omega

/-- A dinode reads back. -/
theorem read_write_same {data : Block} {k : Nat} {d : Dinode} (inside : k < IPB) :
    read (write data k d) k = d := by
  have fits : ∀ f ∈ d.fields (64 * k), f.off + f.width ≤ BSIZE := by
    intro f member
    have bounds := (fields_bounds member).2
    simp only [IPB, BSIZE] at inside ⊢
    omega
  have field : ∀ off width value, (⟨off, width, value⟩ : Field) ∈ d.fields (64 * k) →
      readLE (write data k d) off width = value % 256 ^ width := by
    intro off width value member
    exact readLE_writeFields_mem (d.fields_apart _) member (fits _ member)
  ext1
  · simp only [read]
    rw [field _ 2 d.type.toNat (by simp [fields]),
      field _ 2 d.major.toNat (by simp [fields]),
      field _ 2 d.minor.toNat (by simp [fields]),
      field _ 2 d.nlink.toNat (by simp [fields]),
      field _ 4 d.size.toNat (by simp [fields])]
    simp
  · rename_i n
    have member : (⟨64 * k + 12 + 4 * n.val, 4, (d.addrs n).toNat⟩ : Field) ∈
        d.fields (64 * k) := by
      simp only [fields, List.mem_cons, List.mem_map]
      iterate 5 right
      exact ⟨n, List.mem_finRange n, rfl⟩
    simp only [read]
    rw [field _ 4 _ member]
    simp

/-- Writing a dinode leaves the other dinodes of the block alone. -/
theorem read_write_other {data : Block} {k j : Nat} {d : Dinode} (other : j ≠ k) :
    read (write data k d) j = read data j := by
  have kept : ∀ off width, 64 * j ≤ off → off + width ≤ 64 * j + 64 →
      readLE (write data k d) off width = readLE data off width := by
    intro off width low high
    apply readLE_writeFields_other
    intro f member
    have bounds := fields_bounds member
    omega
  ext1
  · simp only [read]
    rw [kept _ 2 (by omega) (by omega), kept _ 2 (by omega) (by omega),
      kept _ 2 (by omega) (by omega), kept _ 2 (by omega) (by omega),
      kept _ 4 (by omega) (by omega)]
  · rename_i n
    have below : n.val < 13 := n.isLt
    simp only [read]
    rw [kept _ 4 (by omega) (by omega)]

/-- An inode after `ialloc`: all fields zero but its type. -/
def fresh (type : UInt16) : Dinode where
  type := type
  major := 0
  minor := 0
  nlink := 0
  size := 0
  addrs _ := 0

@[simp]
theorem addr_fresh (type : UInt16) (n : Nat) : (fresh type).addr n = 0 := by
  simp [addr, fresh]

end Dinode

/-! ## The bitmap -/

/-- Is bit `bi` of the bitmap block set? -/
def bit (data : Block) (bi : Nat) : Bool :=
  (readLE data (bi / 8) 1).testBit (bi % 8)

/-- Mark block in use. -/
def setBit (data : Block) (bi : Nat) : Block :=
  writeLE data (bi / 8) 1 (readLE data (bi / 8) 1 ||| 2 ^ (bi % 8))

/-- Mark block free. -/
def clearBit (data : Block) (bi : Nat) : Block :=
  writeLE data (bi / 8) 1 (readLE data (bi / 8) 1 &&& (255 ^^^ 2 ^ (bi % 8)))

theorem bit_writeLE {data : Block} {bi bj value : Nat} (inside : bi < BPB)
    (fits : value < 256) :
    bit (writeLE data (bi / 8) 1 value) bj =
      if bj / 8 = bi / 8 then value.testBit (bj % 8) else bit data bj := by
  have row : bi / 8 + 1 ≤ BSIZE := by
    simp only [BPB, BSIZE] at inside ⊢
    omega
  unfold bit
  split <;> rename_i same
  · rw [same, readLE_writeLE_same row, Nat.pow_one, Nat.mod_eq_of_lt fits]
  · rw [readLE_writeLE_disjoint (by omega)]

theorem bit_setBit {data : Block} {bi bj : Nat} (inside : bi < BPB) :
    bit (setBit data bi) bj = (decide (bj = bi) || bit data bj) := by
  have digit := readLE_lt data (bi / 8) 1
  have power : 2 ^ (bi % 8) < 2 ^ 8 := Nat.pow_lt_pow_right (by omega) (by omega)
  have fits : readLE data (bi / 8) 1 ||| 2 ^ (bi % 8) < 256 :=
    Nat.or_lt_two_pow (n := 8) digit power
  unfold setBit
  rw [bit_writeLE inside fits]
  split <;> rename_i same
  · rw [Nat.testBit_or, Nat.testBit_two_pow, bit, same, Bool.or_comm]
    congr 1
    apply decide_eq_decide.mpr
    omega
  · have other : bj ≠ bi := by
      rintro rfl
      exact same rfl
    simp [other]

theorem bit_clearBit {data : Block} {bi bj : Nat} (inside : bi < BPB) :
    bit (clearBit data bi) bj = (!decide (bj = bi) && bit data bj) := by
  have digit := readLE_lt data (bi / 8) 1
  have fits : readLE data (bi / 8) 1 &&& (255 ^^^ 2 ^ (bi % 8)) < 256 :=
    lt_of_le_of_lt Nat.and_le_left digit
  unfold clearBit
  rw [bit_writeLE inside fits]
  split <;> rename_i same
  · have full : Nat.testBit 255 (bj % 8) = true := by
      rw [show 255 = 2 ^ 8 - 1 from rfl, Nat.testBit_two_pow_sub_one]
      exact decide_eq_true (Nat.mod_lt _ (by omega))
    rw [Nat.testBit_and, Nat.testBit_xor, Nat.testBit_two_pow, full, bit, same,
      Bool.and_comm, Bool.true_xor]
    congr 2
    apply decide_eq_decide.mpr
    omega
  · have other : bj ≠ bi := by
      rintro rfl
      exact same rfl
    simp [other]

/-! ## Indirect blocks -/

/-- `((uint32_t *)data)[j]`. -/
def entry (data : Block) (j : Nat) : Nat :=
  readLE data (4 * j) 4

/-- `((uint32_t *)data)[j] = a`. -/
def setEntry (data : Block) (j a : Nat) : Block :=
  writeLE data (4 * j) 4 a

theorem entry_setEntry_same {data : Block} {j a : Nat} (inside : j < NINDIRECT)
    (fits : a < 2 ^ 32) : entry (setEntry data j a) j = a := by
  have row : 4 * j + 4 ≤ BSIZE := by
    simp only [NINDIRECT, BSIZE] at inside ⊢
    omega
  rw [entry, setEntry, readLE_writeLE_same row]
  exact Nat.mod_eq_of_lt fits

theorem entry_setEntry_other {data : Block} {j k a : Nat} (other : k ≠ j) :
    entry (setEntry data j a) k = entry data k :=
  readLE_writeLE_disjoint (by omega)

/-- A block of zeros. -/
def zeroBlock : Block := fun _ => 0

theorem readLE_zeroBlock (off width : Nat) : readLE zeroBlock off width = 0 := by
  induction width generalizing off with
  | zero => rfl
  | succ width ih =>
      rw [readLE, ih]
      simp [byteAt, zeroBlock]

@[simp]
theorem entry_zeroBlock (j : Nat) : entry zeroBlock j = 0 :=
  readLE_zeroBlock _ _

end PiKernel.Fs
