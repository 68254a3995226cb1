import PiKernel.Fs.Blocks
import PiKernel.Fs.Refs
import Mathlib.Data.Finset.Card

/-!
# The blocks of a volume and their owners

A block of the data area that is marked in the bitmap belongs to one inode, or it has
just been allocated and belongs to none yet.  `Owned` says so for some inodes, which are
those on disk but for the one a process works on.
-/

namespace PiKernel.Fs

open PiKernel.Bytes

namespace Superblock

/-- The first data block. -/
def datastart (sb : Superblock) : Nat := sb.size - sb.nblocks

/-- The areas of the disk follow each other: inodes, bitmap, data. -/
structure Ordered (sb : Superblock) : Prop where
  positive : 0 < sb.bmapstart
  inodes : ∀ inum, inum < sb.ninodes → sb.IBLOCK inum < sb.bmapstart
  bitmap : ∀ b, b < sb.size → sb.BBLOCK b < sb.datastart
  fits : sb.size ≤ 2 ^ 32

end Superblock

variable (sb : Superblock)

/-- The dinode of an inode. -/
def dinode (view : Nat → Block) (inum : Nat) : Dinode :=
  Dinode.read (view (sb.IBLOCK inum)) (inum % IPB)

/-! ## The bitmap -/

/-- Is the block marked in use? -/
def used (view : Nat → Block) (b : Nat) : Bool :=
  bit (view (sb.BBLOCK b)) (b % BPB)

/-- Mark block in use. -/
def mark (view : Nat → Block) (b : Nat) : Nat → Block :=
  Function.update view (sb.BBLOCK b) (setBit (view (sb.BBLOCK b)) (b % BPB))

/-- Mark block free. -/
def unmark (view : Nat → Block) (b : Nat) : Nat → Block :=
  Function.update view (sb.BBLOCK b) (clearBit (view (sb.BBLOCK b)) (b % BPB))

/-- The blocks that are not in use. -/
def free (view : Nat → Block) : Finset Nat :=
  (Finset.range sb.size).filter fun b => used sb view b = false

variable {sb} {view view' : Nat → Block} {b b' : Nat}

theorem BBLOCK_eq_iff : sb.BBLOCK b' = sb.BBLOCK b ↔ b' / BPB = b / BPB := by
  simp only [Superblock.BBLOCK]
  omega

/-- The place of a bit determines the block. -/
theorem eq_of_place (row : b' / BPB = b / BPB) (place : b' % BPB = b % BPB) : b' = b := by
  rw [← Nat.div_add_mod b' BPB, row, place, Nat.div_add_mod]

theorem used_mark : used sb (mark sb view b) b' = (decide (b' = b) || used sb view b') := by
  have inside : b % BPB < BPB := Nat.mod_lt _ (by simp [BPB, BSIZE])
  unfold used mark
  by_cases row : sb.BBLOCK b' = sb.BBLOCK b
  · rw [row, Function.update_self, bit_setBit inside]
    congr 1
    apply decide_eq_decide.mpr
    constructor
    · exact eq_of_place (BBLOCK_eq_iff.mp row)
    · intro same
      rw [same]
  · have other : b' ≠ b := by
      rintro rfl
      exact row rfl
    rw [Function.update_of_ne row]
    simp [other]

theorem used_unmark :
    used sb (unmark sb view b) b' = (!decide (b' = b) && used sb view b') := by
  have inside : b % BPB < BPB := Nat.mod_lt _ (by simp [BPB, BSIZE])
  unfold used unmark
  by_cases row : sb.BBLOCK b' = sb.BBLOCK b
  · rw [row, Function.update_self, bit_clearBit inside]
    congr 2
    apply decide_eq_decide.mpr
    constructor
    · exact eq_of_place (BBLOCK_eq_iff.mp row)
    · intro same
      rw [same]
  · have other : b' ≠ b := by
      rintro rfl
      exact row rfl
    rw [Function.update_of_ne row]
    simp [other]

theorem used_congr (same : view' (sb.BBLOCK b) = view (sb.BBLOCK b)) :
    used sb view' b = used sb view b := by
  rw [used, same, used]

theorem mem_free : b ∈ free sb view ↔ b < sb.size ∧ used sb view b = false := by
  simp [free]

theorem free_congr (same : ∀ b, b < sb.size → used sb view' b = used sb view b) :
    free sb view' = free sb view := by
  ext b
  rw [mem_free, mem_free]
  constructor
  · rintro ⟨below, unused⟩
    exact ⟨below, same b below ▸ unused⟩
  · rintro ⟨below, unused⟩
    exact ⟨below, (same b below).trans unused⟩

/-- One block less is free. -/
theorem free_erase
    (marks : ∀ b', b' < sb.size → used sb view' b' = (decide (b' = b) || used sb view b')) :
    free sb view' = (free sb view).erase b := by
  ext b'
  rw [Finset.mem_erase, mem_free, mem_free]
  constructor
  · rintro ⟨below, unused⟩
    rw [marks b' below] at unused
    simp only [Bool.or_eq_false_iff, decide_eq_false_iff_not] at unused
    exact ⟨unused.1, below, unused.2⟩
  · rintro ⟨other, below, unused⟩
    refine ⟨below, ?_⟩
    rw [marks b' below, unused]
    simpa using other

theorem dinode_congr {inum : Nat} (same : view' (sb.IBLOCK inum) = view (sb.IBLOCK inum)) :
    dinode sb view' inum = dinode sb view inum := by
  rw [dinode, same, dinode]

/-! ## Owners -/

/-- The inode is one of the volume and not free. -/
def Allocated (sb : Superblock) (d : Nat → Dinode) (inum : Nat) : Prop :=
  inum < sb.ninodes ∧ (d inum).type ≠ 0

/--
Every inode that is not free has the blocks of its region, which are those of a file
without holes.  The marked data blocks are those of some region, and those of `pending`.
-/
structure Owned (sb : Superblock) (d : Nat → Dinode) (count : Nat → Nat)
    (region : Nat → Set Nat) (pending : Set Nat) (view : Nat → Block) : Prop where
  laid : ∀ inum, Allocated sb d inum → Laid (d inum) view (region inum) (count inum)
  none : ∀ inum, ¬ Allocated sb d inum → region inum = ∅
  once : ∀ i j b, b ∈ region i → b ∈ region j → i = j
  apart : ∀ i b, b ∈ region i → b ∉ pending
  inside : ∀ i b, b ∈ region i → sb.datastart ≤ b ∧ b < sb.size
  loose : ∀ b, b ∈ pending → sb.datastart ≤ b ∧ b < sb.size
  marked : ∀ b, b < sb.size →
    (used sb view b = true ↔ b < sb.datastart ∨ b ∈ pending ∨ ∃ i, b ∈ region i)

namespace Owned

variable {d : Nat → Dinode} {count : Nat → Nat} {region : Nat → Set Nat}
  {pending pending' : Set Nat} {inum : Nat}

/-- A block that is not in use has no owner. -/
theorem fresh (owned : Owned sb d count region pending view) (below : b < sb.size)
    (unused : used sb view b = false) :
    sb.datastart ≤ b ∧ b ∉ pending ∧ ∀ i, b ∉ region i := by
  have marked := owned.marked b below
  rw [unused] at marked
  simp only [Bool.false_eq_true, false_iff, not_or, not_lt, not_exists] at marked
  exact marked

theorem used_of_mem (owned : Owned sb d count region pending view) (member : b ∈ region inum) :
    used sb view b = true :=
  (owned.marked b (owned.inside inum b member).2).mpr (Or.inr (Or.inr ⟨inum, member⟩))

/-- A block is allocated. -/
theorem allocate (owned : Owned sb d count region pending view) (below : b < sb.size)
    (unused : used sb view b = false)
    (marks : ∀ b', b' < sb.size → used sb view' b' = (decide (b' = b) || used sb view b'))
    (same : ∀ i x, x ∈ region i → view' x = view x) :
    Owned sb d count region (insert b pending) view' := by
  rcases owned.fresh below unused with ⟨low, free, unowned⟩
  constructor
  · intro i live
    exact (owned.laid i live).congr (same i)
  · exact owned.none
  · exact owned.once
  · intro i x member
    rw [Set.mem_insert_iff, not_or]
    constructor
    · rintro rfl
      exact unowned i member
    · exact owned.apart i x member
  · exact owned.inside
  · intro x member
    rcases Set.mem_insert_iff.mp member with rfl | member
    · exact ⟨low, below⟩
    · exact owned.loose x member
  · intro x bound
    rw [marks x bound, Bool.or_eq_true, decide_eq_true_eq, owned.marked x bound,
      Set.mem_insert_iff]
    tauto

/-- An inode changes, and its blocks with it. -/
theorem assign (owned : Owned sb d count region pending view) {e : Dinode} {c : Nat}
    {owns : Set Nat}
    (same : ∀ i, i ≠ inum → ∀ x, x ∈ region i → view' x = view x)
    (marks : ∀ x, x < sb.size → used sb view' x = used sb view x)
    (laid : inum < sb.ninodes → e.type ≠ 0 → Laid e view' owns c)
    (none : ¬ (inum < sb.ninodes ∧ e.type ≠ 0) → owns = ∅)
    (total : ∀ x, x ∈ owns ∨ x ∈ pending' ↔ x ∈ region inum ∨ x ∈ pending)
    (disjoint : ∀ x, x ∈ owns → x ∉ pending') :
    Owned sb (Function.update d inum e) (Function.update count inum c)
      (Function.update region inum owns) pending' view' := by
  have kept : ∀ x, x ∈ owns ∨ x ∈ pending' → sb.datastart ≤ x ∧ x < sb.size := by
    intro x member
    rcases (total x).mp member with member | member
    · exact owned.inside inum x member
    · exact owned.loose x member
  have other : ∀ i x, i ≠ inum → x ∈ region i → ¬ (x ∈ owns ∨ x ∈ pending') := by
    intro i x different member mine
    rcases (total x).mp mine with mine | mine
    · exact different (owned.once i inum x member mine)
    · exact owned.apart i x member mine
  constructor
  · intro i live
    by_cases here : i = inum
    · subst here
      simp only [Allocated, Function.update_self] at live ⊢
      exact laid live.1 live.2
    · simp only [Allocated, Function.update_of_ne here] at live ⊢
      exact (owned.laid i live).congr (same i here)
  · intro i free
    by_cases here : i = inum
    · subst here
      simp only [Allocated, Function.update_self] at free ⊢
      exact none free
    · simp only [Allocated, Function.update_of_ne here] at free ⊢
      exact owned.none i free
  · intro i j x first second
    simp only [Function.update_apply] at first second
    split at first <;> split at second <;> rename_i here there
    · exact here.trans there.symm
    · exact absurd (Or.inl first) (other j x there second)
    · exact absurd (Or.inl second) (other i x here first)
    · exact owned.once i j x first second
  · intro i x member
    by_cases here : i = inum
    · subst here
      rw [Function.update_self] at member
      exact disjoint x member
    · rw [Function.update_of_ne here] at member
      intro loose
      exact other i x here member (Or.inr loose)
  · intro i x member
    by_cases here : i = inum
    · subst here
      rw [Function.update_self] at member
      exact kept x (Or.inl member)
    · rw [Function.update_of_ne here] at member
      exact owned.inside i x member
  · intro x member
    exact kept x (Or.inr member)
  · intro x bound
    have owners : (∃ i, x ∈ Function.update region inum owns i) ↔
        x ∈ owns ∨ ∃ i, i ≠ inum ∧ x ∈ region i := by
      constructor
      · rintro ⟨i, member⟩
        by_cases here : i = inum
        · subst here
          rw [Function.update_self] at member
          exact Or.inl member
        · rw [Function.update_of_ne here] at member
          exact Or.inr ⟨i, here, member⟩
      · rintro (member | ⟨i, here, member⟩)
        · exact ⟨inum, by rwa [Function.update_self]⟩
        · exact ⟨i, by rwa [Function.update_of_ne here]⟩
    have before : (∃ i, x ∈ region i) ↔ x ∈ region inum ∨ ∃ i, i ≠ inum ∧ x ∈ region i := by
      constructor
      · rintro ⟨i, member⟩
        by_cases here : i = inum
        · exact Or.inl (here ▸ member)
        · exact Or.inr ⟨i, here, member⟩
      · rintro (member | ⟨i, _, member⟩)
        · exact ⟨inum, member⟩
        · exact ⟨i, member⟩
    rw [marks x bound, owned.marked x bound, owners, before, ← or_assoc (b := x ∈ region inum),
      ← or_assoc (b := x ∈ owns), or_comm (b := x ∈ region inum), or_comm (b := x ∈ owns),
      total x]

end Owned

end PiKernel.Fs
