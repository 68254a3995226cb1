import PiKernel.Mkfs.Invariant

/-!
# Appending to a file

`iappend` succeeds exactly where the file does not get too long and the image has the
blocks, and then the contents of the file are longer by the new bytes.
-/

namespace PiKernel.Mkfs

open PiKernel.Bytes
open PiKernel.Fs

variable {s s' : Image} {g : Ghost} {inum a b k x : Nat} {d e : Dinode} {region : Set Nat}
  {count : Nat} {bytes : List UInt8}

/-! ## The next block -/

theorem FSSIZE_small : FSSIZE < 2 ^ 23 := by decide

/-- A block of the file is found where it is. -/
theorem blockFor_old (inv : Inv s g inum) (allocated : s.Allocated inum)
    (old : k < g.count inum) :
    s.blockFor (g.node inum) k = some ((g.node inum).ref s.view k, g.node inum, s) := by
  have stored := inv.stored inum allocated
  have used := stored.laid.used old
  have inside := lt_of_lt_of_le old stored.laid.small
  rw [Image.blockFor]
  by_cases direct : k < NDIRECT
  · rw [Dinode.ref_direct direct] at used
    rw [if_pos direct, Image.addr, if_neg used, Dinode.ref_direct direct]
  · have indirect := stored.laid.indirect_used (by omega)
    have place := inv.inside inum allocated _ (stored.laid.indirect indirect)
    have small := FSSIZE_small
    have high := inv.high
    rw [Dinode.ref_entry direct inside indirect] at used
    have read : s.rsect ((g.node inum).addr NDIRECT) =
        some (s.view ((g.node inum).addr NDIRECT)) := by
      rw [inv.rsect (by omega), if_pos (by omega)]
    rw [if_neg direct, Image.addr, if_neg indirect, Dinode.ref_entry direct inside indirect]
    simp [Image.indirect, read, used]

/-- A file has its block `k`, the last one. -/
structure Placed (s : Image) (g : Ghost) (inum k x : Nat) (e : Dinode) (s' : Image)
    (region : Set Nat) : Prop where
  inv : Inv s' (g.set inum e (g.bytes inum) region (k + 1)) inum
  ref : e.ref s'.view k = x
  toMeta : e.toMeta = (g.node inum).toMeta
  freeinode : s'.freeinode = s.freeinode
  freeblock : s'.freeblock = s.freeblock + (cost (k + 1) - cost (g.count inum))

/-- A new block holds zeros, which follow the contents. -/
theorem Stored.extend {view view' : Nat → Block} {region' : Set Nat}
    (stored : Stored d view region count bytes) (laid : Laid e view' region' (count + 1))
    (direct : count + 1 ≤ NDIRECT → e.addr NDIRECT = 0)
    (old : ∀ k, k < count → e.ref view' k = d.ref view k)
    (same : ∀ k, k < count → view' (d.ref view k) = view (d.ref view k))
    (zero : view' (e.ref view' count) = zeroBlock) :
    Stored e view' region' (count + 1) bytes := by
  constructor
  · exact laid
  · exact direct
  · intro k inside
    by_cases before : k < count * BSIZE
    · have block : k / BSIZE < count := Nat.div_lt_of_lt_mul (by rwa [Nat.mul_comm])
      rw [Dinode.byte, old _ block, same _ block, ← stored.content k before, Dinode.byte]
    · have last : k / BSIZE = count := by
        apply Nat.div_eq_of_lt_le
        · omega
        · exact inside
      have enough := stored.enough
      have past : bytes[k]? = none := List.getElem?_eq_none (by omega)
      rw [Dinode.byte, last, zero, List.getD_eq_getElem?_getD, past]
      simp [byteAt, zeroBlock]
  · have enough := stored.enough
    rw [Nat.add_mul]
    omega

theorem Image.wsect_eq (length : s.length = FSSIZE) (inside : a < FSSIZE) (buf : Block) :
    s.wsect a buf = { s with view := Function.update s.view a buf } := by
  have small := FSSIZE_small
  have longer : max s.length (a + 1) = s.length := by omega
  rw [Image.wsect, sector_eq (by omega), longer]

/-- The first free block belongs to no file. -/
theorem Inv.unclaimed (inv : Inv s g inum) (allocated : s.Allocated inum)
    (free : s.freeblock ≤ b) : b ∉ g.region inum := by
  intro member
  have bounds := inv.inside inum allocated b member
  omega

theorem nmeta_pos : 0 < nmeta := by decide

theorem cost_succ (other : count ≠ NDIRECT) : cost (count + 1) = cost count + 1 := by
  simp only [cost]
  split <;> split <;> omega

theorem cost_mono {m n : Nat} (le : m ≤ n) : cost m ≤ cost n := by
  simp only [cost]
  split <;> split <;> omega

theorem cost_first : cost (NDIRECT + 1) = cost NDIRECT + 2 := by decide

/-- The next block is a direct one. -/
theorem blockFor_direct (inv : Inv s g inum) (allocated : s.Allocated inum)
    (direct : g.count inum < NDIRECT) :
    s.blockFor (g.node inum) (g.count inum) =
      some (s.freeblock, (g.node inum).setAddr (g.count inum) s.freeblock,
        { s with freeblock := s.freeblock + 1 }) := by
  have stored := inv.stored inum allocated
  have inside : g.count inum < MAXFILE := lt_of_lt_of_le direct (Nat.le_add_right _ _)
  have vacant := stored.laid.vacant inside
  have fits := FSSIZE_small
  have high := inv.high
  rw [Dinode.ref_direct direct] at vacant
  rw [Image.blockFor, if_pos direct, Image.addr, if_pos vacant]
  simp only [Dinode.addr_setAddr_same (by omega : g.count inum < NDIRECT + 1)
    (by omega : s.freeblock < 2 ^ 32)]

/-- What is left to show of a new block. -/
theorem Inv.placed (inv : Inv s g inum) (allocated : s.Allocated inum)
    (length : s'.length = s.length) (freeinode : s'.freeinode = s.freeinode)
    (freeblock : s'.freeblock =
      s.freeblock + (cost (g.count inum + 1) - cost (g.count inum)))
    (high : s'.freeblock ≤ FSSIZE)
    (stored : Stored e s'.view region (g.count inum + 1) (g.bytes inum))
    (toMeta : e.toMeta = (g.node inum).toMeta)
    (claimed : ∀ b, b ∈ region ↔
      b ∈ g.region inum ∨ s.freeblock ≤ b ∧ b < s'.freeblock)
    (same : ∀ b, b ∉ region → s'.view b = s.view b)
    (ref : e.ref s'.view (g.count inum) = x) :
    Placed s g inum (g.count inum) x e s' region := by
  have more : cost (g.count inum) ≤ cost (g.count inum + 1) := cost_mono (Nat.le_succ _)
  constructor
  · apply inv.step allocated length freeinode high stored
    · rw [toMeta]
    · intro b member
      exact (claimed b).mpr (Or.inl member)
    · intro b member
      exact (claimed b).mp member
    · exact same
    · omega
  · exact ref
  · exact toMeta
  · exact freeinode
  · exact freeblock

theorem placed_direct (inv : Inv s g inum) (allocated : s.Allocated inum)
    (direct : g.count inum < NDIRECT) (room : s.freeblock + 1 ≤ FSSIZE) :
    Placed s g inum (g.count inum) s.freeblock
      ((g.node inum).setAddr (g.count inum) s.freeblock) { s with freeblock := s.freeblock + 1 }
      (insert s.freeblock (g.region inum)) := by
  have stored := inv.stored inum allocated
  have inside : g.count inum < MAXFILE := lt_of_lt_of_le direct (Nat.le_add_right _ _)
  have fits := FSSIZE_small
  have low := inv.low
  have positive := nmeta_pos
  have refs : ((g.node inum).setAddr (g.count inum) s.freeblock).ref s.view =
      Function.update ((g.node inum).ref s.view) (g.count inum) s.freeblock :=
    Dinode.ref_setAddr_direct direct (by omega)
  have price := cost_succ (Nat.ne_of_lt direct)
  apply inv.placed allocated
  · rfl
  · rfl
  · show s.freeblock + 1 = _
    omega
  · exact room
  · apply stored.extend
    · exact stored.laid.extend inside (by omega) (inv.unclaimed allocated (le_refl _)) refs
    · intro few
      rw [Dinode.addr_setAddr_other (by omega)]
      exact stored.direct (by omega)
    · intro k below
      rw [refs, Function.update_of_ne (Nat.ne_of_lt below)]
    · intro k below
      rfl
    · rw [refs, Function.update_self]
      exact inv.zero _ (le_refl _)
  · rfl
  · intro b
    rw [Set.mem_insert_iff]
    show b = _ ∨ _ ↔ _ ∨ _ ∧ b < s.freeblock + 1
    have one : b = s.freeblock ↔ s.freeblock ≤ b ∧ b < s.freeblock + 1 := by omega
    rw [one, or_comm]
  · intro b _
    rfl
  · rw [refs, Function.update_self]

/-- The next block is the first one of the indirect block, which is new. -/
theorem blockFor_first (inv : Inv s g inum) (allocated : s.Allocated inum)
    (first : g.count inum = NDIRECT) :
    s.blockFor (g.node inum) (g.count inum) =
      if s.freeblock < FSSIZE then
        some (s.freeblock + 1, (g.node inum).setAddr NDIRECT s.freeblock,
          { s with
            freeblock := s.freeblock + 2
            view := Function.update s.view s.freeblock
              (setEntry zeroBlock 0 (s.freeblock + 1)) })
      else
        none := by
  have stored := inv.stored inum allocated
  have unused := stored.direct (Nat.le_of_eq first)
  have fits := FSSIZE_small
  have high := inv.high
  have zero := inv.zero s.freeblock (le_refl _)
  rw [Image.blockFor, if_neg (by omega), Image.addr, if_pos unused, first]
  simp only [Dinode.addr_setAddr_same (by omega : NDIRECT < NDIRECT + 1)
    (by omega : s.freeblock < 2 ^ 32), Image.indirect, Image.rsect,
    sector_eq (by omega : s.freeblock < 2 ^ 23), inv.length, Nat.sub_self]
  by_cases room : s.freeblock < FSSIZE
  · simp only [if_pos room, zero]
    simp [Image.wsect_eq, room]
  · simp [room]

/-- The next block has an entry in the indirect block. -/
theorem blockFor_entry (inv : Inv s g inum) (allocated : s.Allocated inum)
    (indirect : NDIRECT < g.count inum) (inside : g.count inum < MAXFILE) :
    s.blockFor (g.node inum) (g.count inum) =
      some (s.freeblock, g.node inum,
        { s with
          freeblock := s.freeblock + 1
          view := Function.update s.view ((g.node inum).addr NDIRECT)
            (setEntry (s.view ((g.node inum).addr NDIRECT)) (g.count inum - NDIRECT)
              s.freeblock) }) := by
  have stored := inv.stored inum allocated
  have used := stored.laid.indirect_used indirect
  have vacant := stored.laid.vacant inside
  have place := inv.inside inum allocated _ (stored.laid.indirect used)
  have fits := FSSIZE_small
  have high := inv.high
  rw [Dinode.ref_entry (by omega) inside used] at vacant
  have read : s.rsect ((g.node inum).addr NDIRECT) =
      some (s.view ((g.node inum).addr NDIRECT)) := by
    rw [inv.rsect (by omega), if_pos (by omega)]
  have below : (g.node inum).addr NDIRECT < FSSIZE := by omega
  rw [Image.blockFor, if_neg (by omega), Image.addr, if_neg used]
  simp [Image.indirect, read, vacant, Image.wsect_eq, inv.length, below]

theorem placed_first (inv : Inv s g inum) (allocated : s.Allocated inum)
    (first : g.count inum = NDIRECT) (room : s.freeblock + 2 ≤ FSSIZE) :
    Placed s g inum (g.count inum) (s.freeblock + 1)
      ((g.node inum).setAddr NDIRECT s.freeblock)
      { s with
        freeblock := s.freeblock + 2
        view := Function.update s.view s.freeblock
          (setEntry zeroBlock 0 (s.freeblock + 1)) }
      (insert (s.freeblock + 1) (insert s.freeblock (g.region inum))) := by
  have stored := inv.stored inum allocated
  have unused := stored.direct (Nat.le_of_eq first)
  have fits := FSSIZE_small
  have low := inv.low
  have positive := nmeta_pos
  have zero := inv.zero s.freeblock (le_refl _)
  have free := inv.unclaimed allocated (le_refl _)
  have next := inv.unclaimed allocated (Nat.le_succ s.freeblock)
  have inside : g.count inum < MAXFILE := by
    rw [first]
    decide
  have here : ((g.node inum).setAddr NDIRECT s.freeblock).addr NDIRECT = s.freeblock :=
    Dinode.addr_setAddr_same (Nat.lt_succ_self _) (by omega)
  -- first the empty indirect block, then its entry
  have empty : ((g.node inum).setAddr NDIRECT s.freeblock).ref s.view =
      Function.update ((g.node inum).ref s.view) MAXFILE s.freeblock :=
    Dinode.ref_setAddr_indirect unused (by omega) zero
  have laid := stored.laid.extend_indirect unused (by omega) free empty
  have refs : ((g.node inum).setAddr NDIRECT s.freeblock).ref
        (Function.update s.view s.freeblock (setEntry zeroBlock 0 (s.freeblock + 1))) =
      Function.update (((g.node inum).setAddr NDIRECT s.freeblock).ref s.view)
        (g.count inum) (s.freeblock + 1) := by
    apply Dinode.ref_setEntry
    · rw [here]
      omega
    · omega
    · exact inside
    · omega
    · rw [here, Function.update_self, zero, first, Nat.sub_self]
  have price := cost_first
  rw [← first] at price
  apply inv.placed allocated
  · rfl
  · rfl
  · show s.freeblock + 2 = _
    omega
  · exact room
  · apply stored.extend
    · apply laid.extend inside (by omega) _ refs
      rw [Set.mem_insert_iff]
      rintro (same | member)
      · omega
      · exact next member
    · omega
    · intro k below
      rw [refs, Function.update_of_ne (Nat.ne_of_lt below), empty,
        Function.update_of_ne (by omega)]
    · intro k below
      apply Function.update_of_ne
      intro same
      exact free (same ▸ stored.laid.mem below)
    · rw [refs, Function.update_self]
      show Function.update s.view s.freeblock _ (s.freeblock + 1) = zeroBlock
      rw [Function.update_of_ne (Nat.succ_ne_self _)]
      exact inv.zero _ (Nat.le_succ _)
  · rfl
  · intro b
    rw [Set.mem_insert_iff, Set.mem_insert_iff]
    show b = _ ∨ b = _ ∨ _ ↔ _ ∨ _ ∧ b < s.freeblock + 2
    have two : b = s.freeblock + 1 ∨ b = s.freeblock ↔
        s.freeblock ≤ b ∧ b < s.freeblock + 2 := by omega
    rw [← or_assoc, two, or_comm]
  · intro b outside
    apply Function.update_of_ne
    rintro rfl
    exact outside (Set.mem_insert_of_mem _ (Set.mem_insert _ _))
  · rw [refs, Function.update_self]

theorem placed_entry (inv : Inv s g inum) (allocated : s.Allocated inum)
    (indirect : NDIRECT < g.count inum) (inside : g.count inum < MAXFILE)
    (room : s.freeblock + 1 ≤ FSSIZE) :
    Placed s g inum (g.count inum) s.freeblock (g.node inum)
      { s with
        freeblock := s.freeblock + 1
        view := Function.update s.view ((g.node inum).addr NDIRECT)
          (setEntry (s.view ((g.node inum).addr NDIRECT)) (g.count inum - NDIRECT)
            s.freeblock) }
      (insert s.freeblock (g.region inum)) := by
  have stored := inv.stored inum allocated
  have used := stored.laid.indirect_used indirect
  have member := stored.laid.indirect used
  have fits := FSSIZE_small
  have low := inv.low
  have positive := nmeta_pos
  have free := inv.unclaimed allocated (le_refl _)
  have refs : (g.node inum).ref (Function.update s.view ((g.node inum).addr NDIRECT)
        (setEntry (s.view ((g.node inum).addr NDIRECT)) (g.count inum - NDIRECT)
          s.freeblock)) =
      Function.update ((g.node inum).ref s.view) (g.count inum) s.freeblock := by
    apply Dinode.ref_setEntry used
    · omega
    · exact inside
    · omega
    · rw [Function.update_self]
  have price := cost_succ (Nat.ne_of_gt indirect)
  apply inv.placed allocated
  · rfl
  · rfl
  · show s.freeblock + 1 = _
    omega
  · exact room
  · apply stored.extend
    · exact stored.laid.extend inside (by omega) free refs
    · omega
    · intro k below
      rw [refs, Function.update_of_ne (Nat.ne_of_lt below)]
    · intro k below
      apply Function.update_of_ne
      exact stored.laid.ref_ne_indirect below
    · rw [refs, Function.update_self]
      show Function.update s.view ((g.node inum).addr NDIRECT) _ s.freeblock = zeroBlock
      rw [Function.update_of_ne]
      · exact inv.zero _ (le_refl _)
      · intro same
        exact free (same ▸ member)
  · rfl
  · intro b
    rw [Set.mem_insert_iff]
    show b = _ ∨ _ ↔ _ ∨ _ ∧ b < s.freeblock + 1
    have one : b = s.freeblock ↔ s.freeblock ≤ b ∧ b < s.freeblock + 1 := by omega
    rw [one, or_comm]
  · intro b outside
    apply Function.update_of_ne
    rintro rfl
    exact outside (Set.mem_insert_of_mem _ member)
  · rw [refs, Function.update_self]

/-- The next block of a file, as long as there are free ones. -/
theorem blockFor_new (inv : Inv s g inum) (allocated : s.Allocated inum)
    (inside : g.count inum < MAXFILE)
    (room : s.freeblock + (cost (g.count inum + 1) - cost (g.count inum)) ≤ FSSIZE) :
    ∃ x e s' region, s.blockFor (g.node inum) (g.count inum) = some (x, e, s') ∧
      Placed s g inum (g.count inum) x e s' region := by
  rcases lt_trichotomy (g.count inum) NDIRECT with direct | first | indirect
  · have price := cost_succ (Nat.ne_of_lt direct)
    exact ⟨_, _, _, _, blockFor_direct inv allocated direct,
      placed_direct inv allocated direct (by omega)⟩
  · have price := cost_first
    rw [← first] at price
    refine ⟨_, _, _, _, ?_, placed_first inv allocated first (by omega)⟩
    rw [blockFor_first inv allocated first, if_pos (by omega)]
  · have price := cost_succ (Nat.ne_of_gt indirect)
    exact ⟨_, _, _, _, blockFor_entry inv allocated indirect inside,
      placed_entry inv allocated indirect inside (by omega)⟩

/-- Without enough free blocks the block is past the end of the image. -/
theorem blockFor_full (inv : Inv s g inum) (allocated : s.Allocated inum)
    (inside : g.count inum < MAXFILE)
    (full : FSSIZE < s.freeblock + (cost (g.count inum + 1) - cost (g.count inum))) :
    ((s.blockFor (g.node inum) (g.count inum)).bind fun r => r.2.2.rsect r.1) = none := by
  have high := inv.high
  have fits := FSSIZE_small
  rcases lt_trichotomy (g.count inum) NDIRECT with direct | first | indirect
  · have price := cost_succ (Nat.ne_of_lt direct)
    rw [blockFor_direct inv allocated direct, Option.bind_some, Image.rsect,
      sector_eq (by show s.freeblock < 2 ^ 23; omega), if_neg]
    show ¬ s.freeblock < s.length
    rw [inv.length]
    omega
  · have price := cost_first
    rw [← first] at price
    rw [blockFor_first inv allocated first]
    split
    · rw [Option.bind_some, Image.rsect,
        sector_eq (by show s.freeblock + 1 < 2 ^ 23; omega), if_neg]
      show ¬ s.freeblock + 1 < s.length
      rw [inv.length]
      omega
    · rfl
  · have price := cost_succ (Nat.ne_of_gt indirect)
    rw [blockFor_entry inv allocated indirect inside, Option.bind_some, Image.rsect,
      sector_eq (by show s.freeblock < 2 ^ 23; omega), if_neg]
    show ¬ s.freeblock < s.length
    rw [inv.length]
    omega

/-! ## Bytes after the others -/

theorem Stored.write {view : Nat → Block} (stored : Stored d view region count bytes)
    (inside : bytes.length / BSIZE < count) {chunk : List UInt8}
    (fits : bytes.length % BSIZE + chunk.length ≤ BSIZE) :
    Stored d
      (Function.update view (d.ref view (bytes.length / BSIZE))
        (splice (view (d.ref view (bytes.length / BSIZE))) (bytes.length % BSIZE) chunk))
      region count (bytes ++ chunk) := by
  have refs := stored.laid.ref_write inside
    (splice (view (d.ref view (bytes.length / BSIZE))) (bytes.length % BSIZE) chunk)
  have used := stored.laid.used inside
  have sector := Nat.div_add_mod bytes.length BSIZE
  constructor
  · constructor
    · rw [refs]
      exact stored.laid.maps
    · rw [refs]
      exact stored.laid.full
    · exact stored.laid.small
  · exact stored.direct
  · intro k low
    have before := stored.content k low
    have place := Nat.div_add_mod k BSIZE
    have small : k % BSIZE < BSIZE := Nat.mod_lt _ (by decide)
    rw [Dinode.byte] at before
    rw [Dinode.byte, refs]
    by_cases here : k / BSIZE = bytes.length / BSIZE
    · rw [here] at before place
      rw [here, Function.update_self]
      by_cases old : k < bytes.length
      · rw [byteAt_splice_outside (by omega), before, List.getD_append _ _ _ _ old]
      · rw [List.getD_append_right _ _ _ _ (by omega)]
        by_cases new : k < bytes.length + chunk.length
        · have shift : k % BSIZE = bytes.length % BSIZE + (k - bytes.length) := by omega
          rw [shift, byteAt_splice_inside (by omega) fits,
            List.getD_eq_getElem _ _ (by omega)]
        · rw [byteAt_splice_outside (by omega), before, List.getD_eq_default _ _ (by omega),
            List.getD_eq_default _ _ (by omega)]
    · have below : k / BSIZE < count := Nat.div_lt_of_lt_mul (by rwa [Nat.mul_comm])
      have apart : d.ref view (k / BSIZE) ≠ d.ref view (bytes.length / BSIZE) := by
        intro same
        exact here (stored.laid.maps.once _ _ same (same ▸ used))
      rw [Function.update_of_ne apart, before]
      by_cases old : k < bytes.length
      · rw [List.getD_append _ _ _ _ old]
      · have later : bytes.length / BSIZE < k / BSIZE :=
          lt_of_le_of_ne (Nat.div_le_div_right (by omega)) (Ne.symm here)
        have past : (bytes.length / BSIZE + 1) * BSIZE ≤ k / BSIZE * BSIZE :=
          Nat.mul_le_mul_right _ later
        rw [Nat.add_mul, Nat.mul_comm (bytes.length / BSIZE), Nat.mul_comm (k / BSIZE)] at past
        rw [List.getD_eq_default _ _ (by omega), List.getD_eq_default _ _ (by
          rw [List.length_append]
          omega)]
  · have most : (bytes.length / BSIZE + 1) * BSIZE ≤ count * BSIZE :=
      Nat.mul_le_mul_right _ inside
    rw [Nat.add_mul, Nat.mul_comm _ BSIZE] at most
    rw [List.length_append]
    omega

/-- What the loop writes to a block. -/
theorem Inv.write (inv : Inv s g inum) (allocated : s.Allocated inum)
    (inside : (g.bytes inum).length / BSIZE < g.count inum) {chunk : List UInt8}
    (fits : (g.bytes inum).length % BSIZE + chunk.length ≤ BSIZE)
    (place : (g.node inum).ref s.view ((g.bytes inum).length / BSIZE) = x) :
    s.rsect x = some (s.view x) ∧
      Inv (s.wsect x (splice (s.view x) ((g.bytes inum).length % BSIZE) chunk))
        (g.set inum (g.node inum) (g.bytes inum ++ chunk) (g.region inum) (g.count inum))
        inum ∧
      (s.wsect x (splice (s.view x) ((g.bytes inum).length % BSIZE) chunk)).freeinode =
        s.freeinode ∧
      (s.wsect x (splice (s.view x) ((g.bytes inum).length % BSIZE) chunk)).freeblock =
        s.freeblock := by
  subst place
  have stored := inv.stored inum allocated
  have member := stored.laid.mem inside
  have bounds := inv.inside inum allocated _ member
  have small := FSSIZE_small
  have high := inv.high
  have below := lt_of_lt_of_le bounds.2 high
  constructor
  · rw [inv.rsect (by omega), if_pos below]
  · rw [Image.wsect_eq inv.length below]
    refine ⟨?_, rfl, rfl⟩
    apply inv.step allocated
    · rfl
    · rfl
    · exact high
    · exact stored.write inside fits
    · rfl
    · intro b old
      exact old
    · intro b old
      exact Or.inl old
    · intro b outside
      apply Function.update_of_ne
      rintro rfl
      exact outside member
    · exact le_refl _

/-! ## The loop -/

namespace Ghost

variable {g : Ghost} {inum : Nat} {d e : Dinode} {bytes bytes' : List UInt8}
  {region region' : Set Nat} {count count' : Nat}

@[simp]
theorem set_self : g.set inum (g.node inum) (g.bytes inum) (g.region inum) (g.count inum) =
    g := by
  simp [set]

@[simp]
theorem set_set : (g.set inum d bytes region count).set inum e bytes' region' count' =
    g.set inum e bytes' region' count' := by
  simp [set]

@[simp]
theorem node_set : (g.set inum d bytes region count).node inum = d := by
  simp [set]

@[simp]
theorem bytes_set : (g.set inum d bytes region count).bytes inum = bytes := by
  simp [set]

@[simp]
theorem region_set : (g.set inum d bytes region count).region inum = region := by
  simp [set]

@[simp]
theorem count_set : (g.set inum d bytes region count).count inum = count := by
  simp [set]

end Ghost

theorem blocks_whole {len : Nat} (whole : len % BSIZE = 0) : blocks len = len / BSIZE := by
  simp only [blocks, BSIZE] at whole ⊢
  omega

/-- The bytes end in the block after `len / BSIZE` others. -/
theorem blocks_chunk {len n : Nat} (positive : 0 < len % BSIZE + n)
    (fits : len % BSIZE + n ≤ BSIZE) : blocks (len + n) = len / BSIZE + 1 := by
  simp only [blocks, BSIZE] at positive fits ⊢
  omega

theorem blocks_mono {m n : Nat} (le : m ≤ n) : blocks m ≤ blocks n :=
  Nat.div_le_div_right (by omega)

/-- The block which the next byte belongs to. -/
theorem blockFor_next (inv : Inv s g inum) (allocated : s.Allocated inum)
    (tight : g.count inum = blocks (g.bytes inum).length)
    (inside : (g.bytes inum).length / BSIZE < MAXFILE)
    (room : s.freeblock +
      (cost ((g.bytes inum).length / BSIZE + 1) - cost (g.count inum)) ≤ FSSIZE) :
    ∃ x e s' region,
      s.blockFor (g.node inum) ((g.bytes inum).length / BSIZE) = some (x, e, s') ∧
        Placed s g inum ((g.bytes inum).length / BSIZE) x e s' region := by
  by_cases whole : (g.bytes inum).length % BSIZE = 0
  · rw [blocks_whole whole] at tight
    rw [← tight] at inside room ⊢
    exact blockFor_new inv allocated inside room
  · have last : g.count inum = (g.bytes inum).length / BSIZE + 1 := by
      rw [tight]
      exact blocks_chunk (n := 0) (Nat.pos_of_ne_zero whole)
        (Nat.le_of_lt (Nat.mod_lt _ (by decide)))
    refine ⟨_, _, _, g.region inum, blockFor_old inv allocated (by omega), ?_⟩
    constructor
    · rw [← last, Ghost.set_self]
      exact inv
    · rfl
    · rfl
    · rfl
    · rw [← last, Nat.sub_self, Nat.add_zero]

/-- The loop fails where it needs a block and there is none. -/
theorem blockFor_next_full (inv : Inv s g inum) (allocated : s.Allocated inum)
    (tight : g.count inum = blocks (g.bytes inum).length)
    (inside : (g.bytes inum).length / BSIZE < MAXFILE)
    (full : FSSIZE < s.freeblock +
      (cost ((g.bytes inum).length / BSIZE + 1) - cost (g.count inum))) :
    ((s.blockFor (g.node inum) ((g.bytes inum).length / BSIZE)).bind fun r =>
      r.2.2.rsect r.1) = none := by
  by_cases whole : (g.bytes inum).length % BSIZE = 0
  · rw [blocks_whole whole] at tight
    rw [← tight] at inside full ⊢
    exact blockFor_full inv allocated inside full
  · have last : g.count inum = (g.bytes inum).length / BSIZE + 1 := by
      rw [tight]
      exact blocks_chunk (n := 0) (Nat.pos_of_ne_zero whole)
        (Nat.le_of_lt (Nat.mod_lt _ (by decide)))
    have high := inv.high
    rw [← last] at full
    omega

/-- The bytes are appended to the file in memory. -/
structure Appended (s : Image) (g : Ghost) (inum : Nat) (p : List UInt8) (d : Dinode)
    (s' : Image) (region : Set Nat) : Prop where
  inv : Inv s' (g.set inum d (g.bytes inum ++ p) region
    (blocks ((g.bytes inum).length + p.length))) inum
  toMeta : d.toMeta = (g.node inum).toMeta
  freeinode : s'.freeinode = s.freeinode
  freeblock : s'.freeblock = s.freeblock +
    (cost (blocks ((g.bytes inum).length + p.length)) - cost (blocks (g.bytes inum).length))

/-- The image takes `n` more bytes of the file. -/
def Fits (s : Image) (g : Ghost) (inum n : Nat) : Prop :=
  (g.bytes inum).length + n ≤ MAXFILE * BSIZE ∧
    s.freeblock +
      (cost (blocks ((g.bytes inum).length + n)) - cost (blocks (g.bytes inum).length)) ≤
        FSSIZE

/-- What one round of the loop copies. -/
def piece (len : Nat) (p : List UInt8) : Nat := min p.length (BSIZE - len % BSIZE)

theorem piece_eq (len : Nat) (p : List UInt8) :
    min p.length ((len / BSIZE + 1) * BSIZE - len) = piece len p := by
  have rest : (len / BSIZE + 1) * BSIZE - len = BSIZE - len % BSIZE := by
    simp only [BSIZE]
    omega
  rw [rest, piece]

theorem block_offset (len : Nat) : len - len / BSIZE * BSIZE = len % BSIZE := by
  simp only [BSIZE]
  omega

theorem piece_fits (len : Nat) (p : List UInt8) : len % BSIZE + piece len p ≤ BSIZE := by
  have small : len % BSIZE < BSIZE := Nat.mod_lt _ (by decide)
  have most : piece len p ≤ BSIZE - len % BSIZE := Nat.min_le_right _ _
  omega

theorem piece_pos {p : List UInt8} (some : p.length ≠ 0) (len : Nat) : 0 < piece len p := by
  have small : len % BSIZE < BSIZE := Nat.mod_lt _ (by decide)
  rw [piece, Nat.lt_min]
  omega

theorem piece_le (len : Nat) (p : List UInt8) : piece len p ≤ p.length :=
  Nat.min_le_left _ _

/-- One round of the loop. -/
theorem iappend_round (inv : Inv s g inum) (allocated : s.Allocated inum)
    (tight : g.count inum = blocks (g.bytes inum).length) {p : List UInt8}
    (more : p.length ≠ 0) (inside : (g.bytes inum).length / BSIZE < MAXFILE)
    (room : s.freeblock +
      (cost ((g.bytes inum).length / BSIZE + 1) - cost (g.count inum)) ≤ FSSIZE) :
    ∃ d s' region,
      (∀ fuel, Image.iappendLoop (fuel + 1) s (g.node inum) (g.bytes inum).length p =
        Image.iappendLoop fuel s' d ((g.bytes inum).length + piece (g.bytes inum).length p)
          (p.drop (piece (g.bytes inum).length p))) ∧
      Appended s g inum (p.take (piece (g.bytes inum).length p)) d s' region := by
  obtain ⟨x, e, s₁, region, found, placed⟩ :=
    blockFor_next inv allocated tight inside room
  have allocated₁ : s₁.Allocated inum := by
    rw [Image.Allocated, placed.freeinode]
    exact allocated
  have fits := piece_fits (g.bytes inum).length p
  have length : (p.take (piece (g.bytes inum).length p)).length =
      piece (g.bytes inum).length p := by
    rw [List.length_take, Nat.min_eq_left (piece_le _ _)]
  have last : blocks ((g.bytes inum).length + piece (g.bytes inum).length p) =
      (g.bytes inum).length / BSIZE + 1 :=
    blocks_chunk (Nat.add_pos_right _ (piece_pos more _)) fits
  have written := fun inside fits => placed.inv.write (x := x) allocated₁ inside
    (fits : _ + (p.take (piece (g.bytes inum).length p)).length ≤ BSIZE)
  simp only [Ghost.bytes_set, Ghost.count_set, Ghost.node_set, Ghost.region_set,
    Ghost.set_set, length] at written
  obtain ⟨read, inv', freeinode, freeblock⟩ :=
    written (Nat.lt_succ_self _) fits placed.ref
  refine ⟨e, s₁.wsect x (splice (s₁.view x) ((g.bytes inum).length % BSIZE)
    (p.take (piece (g.bytes inum).length p))), region, ?_, ?_⟩
  · intro fuel
    rw [Image.iappendLoop, if_neg more, if_pos inside, found, piece_eq, block_offset]
    simp only [Option.bind_eq_bind, Option.bind_some, read]
  · constructor
    · rw [length, last]
      exact inv'
    · exact placed.toMeta
    · rw [freeinode, placed.freeinode]
    · rw [freeblock, placed.freeblock, length, last, tight]

namespace Appended

variable {p q : List UInt8} {region' : Set Nat} {s₁ : Image}

theorem nil (inv : Inv s g inum) (tight : g.count inum = blocks (g.bytes inum).length) :
    Appended s g inum [] (g.node inum) s (g.region inum) := by
  constructor
  · rw [List.append_nil, List.length_nil, Nat.add_zero, ← tight, Ghost.set_self]
    exact inv
  · rfl
  · rfl
  · rw [List.length_nil, Nat.add_zero, Nat.sub_self, Nat.add_zero]

theorem trans (first : Appended s g inum p d s₁ region)
    (second : Appended s₁ (g.set inum d (g.bytes inum ++ p) region
      (blocks ((g.bytes inum).length + p.length))) inum q e s' region') :
    Appended s g inum (p ++ q) e s' region' := by
  have inv := second.inv
  have freeblock := second.freeblock
  have before := cost_mono (blocks_mono (Nat.le_add_right (g.bytes inum).length p.length))
  have after := cost_mono
    (blocks_mono (Nat.le_add_right ((g.bytes inum).length + p.length) q.length))
  simp only [Ghost.bytes_set, Ghost.set_set, List.append_assoc, List.length_append]
    at inv freeblock
  constructor
  · rw [List.length_append, ← Nat.add_assoc]
    exact inv
  · rw [second.toMeta, Ghost.node_set, first.toMeta]
  · rw [second.freeinode, first.freeinode]
  · rw [freeblock, first.freeblock, List.length_append, ← Nat.add_assoc]
    omega

/-- What is left fits exactly if the whole fits. -/
theorem fits (first : Appended s g inum p d s₁ region) (n : Nat) :
    Fits s₁ (g.set inum d (g.bytes inum ++ p) region
      (blocks ((g.bytes inum).length + p.length))) inum n ↔
        Fits s g inum (p.length + n) := by
  have before := cost_mono (blocks_mono (Nat.le_add_right (g.bytes inum).length p.length))
  have after := cost_mono
    (blocks_mono (Nat.le_add_right ((g.bytes inum).length + p.length) n))
  have freeblock := first.freeblock
  simp only [Fits, Ghost.bytes_set, List.length_append, ← Nat.add_assoc]
  omega

end Appended

theorem Fits.nil {w : Nat} (inv : Inv s g w) (allocated : s.Allocated inum) :
    Fits s g inum 0 := by
  have stored := inv.stored inum allocated
  have most := Nat.mul_le_mul_right BSIZE stored.laid.small
  constructor
  · exact stored.enough.trans most
  · rw [Nat.add_zero, Nat.sub_self, Nat.add_zero]
    exact inv.high

/-- More bytes do not fit better. -/
theorem Fits.mono {m n : Nat} (le : m ≤ n) (fits : Fits s g inum n) : Fits s g inum m := by
  have more := cost_mono (blocks_mono (Nat.add_le_add_left le (g.bytes inum).length))
  simp only [Fits] at fits ⊢
  omega

/-- Where there is no room for a byte, the loop fails. -/
theorem iappend_full (inv : Inv s g inum) (allocated : s.Allocated inum)
    (tight : g.count inum = blocks (g.bytes inum).length) {p : List UInt8}
    (more : p.length ≠ 0) (full : ¬ Fits s g inum 1) (fuel : Nat) :
    Image.iappendLoop (fuel + 1) s (g.node inum) (g.bytes inum).length p = none := by
  have small : (g.bytes inum).length % BSIZE < BSIZE := Nat.mod_lt _ (by decide)
  rw [Image.iappendLoop, if_neg more]
  by_cases inside : (g.bytes inum).length / BSIZE < MAXFILE
  · have last : blocks ((g.bytes inum).length + 1) = (g.bytes inum).length / BSIZE + 1 :=
      blocks_chunk (Nat.succ_pos _) small
    have short : (g.bytes inum).length + 1 ≤ MAXFILE * BSIZE :=
      (Nat.div_lt_iff_lt_mul (by decide)).mp inside
    have none := blockFor_next_full inv allocated tight inside (by
      rw [Fits, last, ← tight] at full
      omega)
    rw [if_pos inside]
    cases found : s.blockFor (g.node inum) ((g.bytes inum).length / BSIZE) with
    | none => rfl
    | some r =>
      rw [found, Option.bind_some] at none
      simp [none]
  · rw [if_neg inside]

theorem iappendLoop_nil {p : List UInt8} (empty : p.length = 0) (fuel off : Nat) :
    Image.iappendLoop fuel s d off p = some (off, d, s) := by
  cases fuel with
  | zero => rfl
  | succ fuel => rw [Image.iappendLoop, if_pos empty]

/-- The loop, which appends the bytes exactly where they fit. -/
theorem iappendLoop_spec {fuel : Nat} {p : List UInt8} (enough : p.length ≤ fuel)
    (inv : Inv s g inum) (allocated : s.Allocated inum)
    (tight : g.count inum = blocks (g.bytes inum).length) :
    (Fits s g inum p.length → ∃ d s' region,
      Image.iappendLoop fuel s (g.node inum) (g.bytes inum).length p =
        some ((g.bytes inum).length + p.length, d, s') ∧
      Appended s g inum p d s' region) ∧
    (¬ Fits s g inum p.length →
      Image.iappendLoop fuel s (g.node inum) (g.bytes inum).length p = none) := by
  induction fuel generalizing s g p with
  | zero =>
    have empty : p = [] := List.length_eq_zero_iff.mp (Nat.le_zero.mp enough)
    subst empty
    constructor
    · intro _
      exact ⟨_, _, _, iappendLoop_nil rfl _ _, Appended.nil inv tight⟩
    · intro full
      exact absurd (Fits.nil inv allocated) full
  | succ fuel ih =>
    by_cases empty : p.length = 0
    · have none : p = [] := List.length_eq_zero_iff.mp empty
      subst none
      constructor
      · intro _
        exact ⟨_, _, _, iappendLoop_nil rfl _ _, Appended.nil inv tight⟩
      · intro full
        exact absurd (Fits.nil inv allocated) full
    · by_cases room : Fits s g inum 1
      · have last : blocks ((g.bytes inum).length + 1) =
            (g.bytes inum).length / BSIZE + 1 :=
          blocks_chunk (Nat.succ_pos _) (Nat.mod_lt _ (by decide))
        have inside : (g.bytes inum).length / BSIZE < MAXFILE :=
          (Nat.div_lt_iff_lt_mul (by decide)).mpr room.1
        obtain ⟨d, s₁, region, next, first⟩ :=
          iappend_round inv allocated tight empty inside (by
            rw [← last, tight]
            exact room.2)
        have allocated₁ : s₁.Allocated inum := by
          rw [Image.Allocated, first.freeinode]
          exact allocated
        have positive := piece_pos empty (g.bytes inum).length
        have most := piece_le (g.bytes inum).length p
        have front : (p.take (piece (g.bytes inum).length p)).length =
            piece (g.bytes inum).length p := by
          rw [List.length_take, Nat.min_eq_left most]
        have back : (p.drop (piece (g.bytes inum).length p)).length =
            p.length - piece (g.bytes inum).length p := List.length_drop
        have cut : piece (g.bytes inum).length p +
            (p.length - piece (g.bytes inum).length p) = p.length := by omega
        have rest := ih (p := p.drop (piece (g.bytes inum).length p)) (by omega)
          first.inv allocated₁ (by rw [Ghost.count_set, Ghost.bytes_set, List.length_append])
        rw [first.fits, front, back, cut] at rest
        simp only [Ghost.node_set, Ghost.bytes_set, List.length_append, front, Nat.add_assoc,
          cut] at rest
        rw [next]
        constructor
        · intro fits
          obtain ⟨e, s', region', done, second⟩ := rest.1 fits
          have whole := first.trans (by
            rw [front]
            exact second)
          rw [List.take_append_drop] at whole
          exact ⟨e, s', region', done, whole⟩
        · exact rest.2
      · constructor
        · intro fits
          exact absurd (fits.mono (Nat.pos_of_ne_zero empty)) room
        · intro _
          exact iappend_full inv allocated tight empty room fuel

end PiKernel.Mkfs
