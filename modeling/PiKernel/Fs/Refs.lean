import PiKernel.Fs.Files
import Mathlib.Data.Set.Basic

/-!
# The blocks of an inode

An inode refers to blocks by its direct addresses, by the entries of its indirect
block, and to the indirect block itself.  `Maps` says that such references are an
injective enumeration of a set of blocks, and `Laid` that they are those of a file
of some number of blocks.
-/

namespace PiKernel.Fs

open PiKernel.Bytes

/-! ## Injective references -/

/-- The references other than 0 are pairwise different and make up the region. -/
structure Maps (ref : Nat → Nat) (region : Set Nat) : Prop where
  region : ∀ b, b ∈ region ↔ b ≠ 0 ∧ ∃ k, ref k = b
  once : ∀ k l, ref k = ref l → ref k ≠ 0 → k = l

namespace Maps

variable {ref : Nat → Nat} {region : Set Nat} {k b : Nat}

theorem mem (maps : Maps ref region) (used : ref k ≠ 0) : ref k ∈ region :=
  (maps.region _).mpr ⟨used, k, rfl⟩

/-- A new block at an empty place. -/
theorem insert (maps : Maps ref region) (empty : ref k = 0) (used : b ≠ 0)
    (fresh : b ∉ region) : Maps (Function.update ref k b) (insert b region) := by
  have missed : ∀ l, ref l ≠ b := by
    intro l same
    exact fresh ((maps.region b).mpr ⟨used, l, same⟩)
  constructor
  · intro x
    rw [Set.mem_insert_iff, maps.region]
    constructor
    · rintro (rfl | ⟨inUse, l, rfl⟩)
      · exact ⟨used, k, Function.update_self ..⟩
      · refine ⟨inUse, l, Function.update_of_ne ?_ ..⟩
        rintro rfl
        exact inUse empty
    · rintro ⟨inUse, l, same⟩
      by_cases here : l = k
      · left
        rw [← same, here, Function.update_self]
      · right
        rw [Function.update_of_ne here] at same
        exact ⟨inUse, l, same⟩
  · intro l m same inUse
    simp only [Function.update_apply] at same inUse
    split at same <;> split at same <;> rename_i first second
    · exact first.trans second.symm
    · exact absurd same.symm (missed m)
    · exact absurd same (missed l)
    · rw [if_neg first] at inUse
      exact maps.once l m same inUse

/-- Without references there are no blocks. -/
theorem empty (none : ∀ k, ref k = 0) : Maps ref ∅ := by
  constructor
  · intro b
    constructor
    · intro member
      cases member
    · rintro ⟨used, k, rfl⟩
      exact absurd (none k) used
  · intro k l _ used
    exact absurd (none k) used

end Maps

/-! ## The references of an inode -/

namespace Dinode

variable {d : Dinode} {view view' : Nat → Block} {k : Nat}

/--
The block of file block `k`; the indirect block has the place after the last one.
-/
def ref (d : Dinode) (view : Nat → Block) (k : Nat) : Nat :=
  if k < NDIRECT then
    d.addr k
  else if k < MAXFILE then
    if d.addr NDIRECT = 0 then 0 else entry (view (d.addr NDIRECT)) (k - NDIRECT)
  else if k = MAXFILE then
    d.addr NDIRECT
  else
    0

/-- Byte `k` of the contents. -/
def byte (d : Dinode) (view : Nat → Block) (k : Nat) : UInt8 :=
  byteAt (view (d.ref view (k / BSIZE))) (k % BSIZE)

theorem ref_direct (direct : k < NDIRECT) : d.ref view k = d.addr k := by
  simp [ref, direct]

theorem ref_entry (indirect : ¬ k < NDIRECT) (inside : k < MAXFILE)
    (used : d.addr NDIRECT ≠ 0) :
    d.ref view k = entry (view (d.addr NDIRECT)) (k - NDIRECT) := by
  simp [ref, indirect, inside, used]

@[simp]
theorem ref_indirect : d.ref view MAXFILE = d.addr NDIRECT := by
  simp [ref, MAXFILE, NDIRECT, NINDIRECT]

theorem ref_eq_zero (outside : MAXFILE < k) : d.ref view k = 0 := by
  have direct : ¬ k < NDIRECT := by
    simp only [MAXFILE] at outside
    omega
  have inside : ¬ k < MAXFILE := by omega
  have last : k ≠ MAXFILE := by omega
  simp [ref, direct, inside, last]

/-- The references depend on the indirect block only. -/
theorem ref_congr (same : d.addr NDIRECT ≠ 0 →
    view' (d.addr NDIRECT) = view (d.addr NDIRECT)) : d.ref view' = d.ref view := by
  funext k
  unfold ref
  by_cases used : d.addr NDIRECT = 0
  · simp [used]
  · simp [used, same used]

theorem addr_of_addrs {e : Dinode} (same : e.addrs = d.addrs) : e.addr = d.addr := by
  funext n
  unfold addr
  rw [same]

/-- No other field of an inode matters. -/
theorem ref_of_addrs {e : Dinode} (same : e.addrs = d.addrs) : e.ref = d.ref := by
  funext view k
  simp only [ref, addr_of_addrs same]

theorem byte_of_addrs {e : Dinode} (same : e.addrs = d.addrs) : e.byte = d.byte := by
  funext view k
  simp only [byte, ref_of_addrs same]

theorem ref_fresh (type : UInt16) : (fresh type).ref view k = 0 := by
  simp [ref]

/-- A new direct address. -/
theorem ref_setAddr_direct {n a : Nat} (direct : n < NDIRECT) (fits : a < 2 ^ 32) :
    (d.setAddr n a).ref view = Function.update (d.ref view) n a := by
  have inside : n < NDIRECT + 1 := by omega
  have other : NDIRECT ≠ n := by omega
  funext k
  by_cases same : k = n
  · subst same
    rw [ref_direct direct, Function.update_self, addr_setAddr_same inside fits]
  · rw [Function.update_of_ne same]
    simp only [ref, addr_setAddr_other same, addr_setAddr_other other]

/-- A new indirect block, which is empty. -/
theorem ref_setAddr_indirect {a : Nat} (empty : d.addr NDIRECT = 0) (fits : a < 2 ^ 32)
    (zeroed : view' a = zeroBlock) :
    (d.setAddr NDIRECT a).ref view' = Function.update (d.ref view) MAXFILE a := by
  have inside : NDIRECT < NDIRECT + 1 := by omega
  funext k
  by_cases last : k = MAXFILE
  · subst last
    rw [ref_indirect, Function.update_self, addr_setAddr_same inside fits]
  · rw [Function.update_of_ne last]
    simp only [ref, addr_setAddr_same inside fits, zeroed, entry_zeroBlock, empty, last]
    split
    · rename_i direct
      have other : k ≠ NDIRECT := by omega
      rw [addr_setAddr_other other]
    · simp

/-- A new entry in the indirect block. -/
theorem ref_setEntry {n a : Nat} (used : d.addr NDIRECT ≠ 0) (indirect : ¬ n < NDIRECT)
    (inside : n < MAXFILE) (fits : a < 2 ^ 32)
    (stored : view' (d.addr NDIRECT) =
      setEntry (view (d.addr NDIRECT)) (n - NDIRECT) a) :
    d.ref view' = Function.update (d.ref view) n a := by
  have place : n - NDIRECT < NINDIRECT := by
    simp only [MAXFILE] at inside
    omega
  funext k
  by_cases same : k = n
  · subst same
    rw [ref_entry indirect inside used, Function.update_self, stored,
      entry_setEntry_same place fits]
  · rw [Function.update_of_ne same]
    simp only [ref, used, if_false]
    split
    · rfl
    · have other : k - NDIRECT ≠ n - NDIRECT := by omega
      rw [stored, entry_setEntry_other other]

end Dinode

/-! ## Files without holes -/

/-- An inode with `count` blocks, none of which is missing. -/
structure Laid (d : Dinode) (view : Nat → Block) (region : Set Nat) (count : Nat) :
    Prop where
  maps : Maps (d.ref view) region
  full : ∀ k, k < MAXFILE → (d.ref view k ≠ 0 ↔ k < count)
  small : count ≤ MAXFILE

namespace Laid

variable {d e : Dinode} {view view' : Nat → Block} {region : Set Nat} {count k : Nat}

theorem used (laid : Laid d view region count) (below : k < count) :
    d.ref view k ≠ 0 :=
  (laid.full k (lt_of_lt_of_le below laid.small)).mpr below

theorem mem (laid : Laid d view region count) (below : k < count) :
    d.ref view k ∈ region :=
  laid.maps.mem (laid.used below)

theorem indirect (laid : Laid d view region count) (used : d.addr NDIRECT ≠ 0) :
    d.addr NDIRECT ∈ region := by
  have last : d.ref view MAXFILE ≠ 0 := by simpa using used
  simpa using laid.maps.mem last

/-- An inode depends on the blocks of its region only. -/
theorem congr (laid : Laid d view region count)
    (same : ∀ b ∈ region, view' b = view b) : Laid d view' region count := by
  have refs : d.ref view' = d.ref view :=
    Dinode.ref_congr fun used => same _ (laid.indirect used)
  exact ⟨refs ▸ laid.maps, refs ▸ laid.full, laid.small⟩

theorem ref_congr (laid : Laid d view region count)
    (same : ∀ b ∈ region, view' b = view b) : d.ref view' = d.ref view :=
  Dinode.ref_congr fun used => same _ (laid.indirect used)

theorem byte_congr (laid : Laid d view region count)
    (same : ∀ b ∈ region, view' b = view b) (below : k / BSIZE < count) :
    d.byte view' k = d.byte view k := by
  rw [Dinode.byte, laid.ref_congr same, same _ (laid.mem below), Dinode.byte]

theorem of_addrs (laid : Laid d view region count) (same : e.addrs = d.addrs) :
    Laid e view region count := by
  have refs : e.ref view = d.ref view := by rw [Dinode.ref_of_addrs same]
  exact ⟨refs ▸ laid.maps, refs ▸ laid.full, laid.small⟩

/-- Past the direct blocks there is an indirect one. -/
theorem indirect_used (laid : Laid d view region count) (many : NDIRECT < count) :
    d.addr NDIRECT ≠ 0 := by
  intro unused
  have used := laid.used many
  have small := laid.small
  have inside : NDIRECT < MAXFILE := by omega
  simp [Dinode.ref, unused, inside] at used

/-- The indirect block is not a block of the contents. -/
theorem ref_ne_indirect (laid : Laid d view region count) (below : k < count) :
    d.ref view k ≠ d.addr NDIRECT := by
  intro same
  have last : d.ref view k = d.ref view MAXFILE := by rw [same, Dinode.ref_indirect]
  have place := laid.maps.once k MAXFILE last (laid.used below)
  have small := laid.small
  omega

/-- Other contents leave the references alone. -/
theorem ref_write (laid : Laid d view region count) (below : k < count) (data : Block) :
    d.ref (Function.update view (d.ref view k) data) = d.ref view := by
  apply Dinode.ref_congr
  intro _
  exact Function.update_of_ne (laid.ref_ne_indirect below).symm ..

theorem empty {type : UInt16} : Laid (Dinode.fresh type) view ∅ 0 := by
  constructor
  · exact Maps.empty fun k => Dinode.ref_fresh type
  · intro k _
    simp [Dinode.ref_fresh]
  · exact Nat.zero_le _

/-- The block after the last one is missing. -/
theorem vacant (laid : Laid d view region count) (room : count < MAXFILE) :
    d.ref view count = 0 := by
  by_contra taken
  exact absurd ((laid.full count room).mp taken) (lt_irrefl count)

/-- The next block of the file. -/
theorem extend (laid : Laid d view region count) {b : Nat} (room : count < MAXFILE)
    (positive : b ≠ 0) (fresh : b ∉ region)
    (refs : e.ref view' = Function.update (d.ref view) count b) :
    Laid e view' (insert b region) (count + 1) := by
  constructor
  · rw [refs]
    exact laid.maps.insert (laid.vacant room) positive fresh
  · intro k inside
    rw [refs]
    by_cases same : k = count
    · subst same
      simpa using positive
    · rw [Function.update_of_ne same, laid.full k inside]
      omega
  · omega

/-- An empty indirect block. -/
theorem extend_indirect (laid : Laid d view region count) {b : Nat}
    (empty : d.addr NDIRECT = 0) (positive : b ≠ 0) (fresh : b ∉ region)
    (refs : e.ref view' = Function.update (d.ref view) MAXFILE b) :
    Laid e view' (insert b region) count := by
  have vacant : d.ref view MAXFILE = 0 := by simpa using empty
  constructor
  · rw [refs]
    exact laid.maps.insert vacant positive fresh
  · intro k inside
    have other : k ≠ MAXFILE := by omega
    rw [refs, Function.update_of_ne other, laid.full k inside]
  · exact laid.small

end Laid

end PiKernel.Fs
