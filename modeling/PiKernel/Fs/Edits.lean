import PiKernel.Fs.Alone

/-!
# Edits of the contents of an inode

`Edit` relates the blocks before and after some bytes of one inode are replaced.  The
inode may have got new blocks; those of the other inodes and everything before the
bitmap stay.
-/

namespace PiKernel.Fs

open PiKernel.Bytes

/-- Some bytes are replaced from `off` on. -/
def patched (old : Nat → UInt8) (off : Nat) (src : List UInt8) : Nat → UInt8 :=
  fun k => if off ≤ k ∧ k < off + src.length then src.getD (k - off) 0 else old k

theorem patched_nil (old : Nat → UInt8) (off : Nat) : patched old off [] = old := by
  funext k
  simp [patched]

/-- The bytes can be replaced in two steps. -/
theorem patched_patched {old : Nat → UInt8} {off m : Nat} {src : List UInt8}
    (within : m ≤ src.length) :
    patched (patched old off (src.take m)) (off + m) (src.drop m) = patched old off src := by
  funext k
  simp only [patched, List.length_take, List.length_drop, Nat.min_eq_left within]
  by_cases late : off + m ≤ k ∧ k < off + src.length
  · have inside : off ≤ k ∧ k < off + src.length := by omega
    have second : off + m ≤ k ∧ k < off + m + (src.length - m) := by omega
    have place : m + (k - (off + m)) = k - off := by omega
    rw [if_pos second, if_pos inside, List.getD_eq_getElem?_getD, List.getElem?_drop, place,
      List.getD_eq_getElem?_getD]
  · have second : ¬ (off + m ≤ k ∧ k < off + m + (src.length - m)) := by omega
    rw [if_neg second]
    by_cases early : off ≤ k ∧ k < off + m
    · have inside : off ≤ k ∧ k < off + src.length := by omega
      have place : k - off < m := by omega
      rw [if_pos early, if_pos inside, List.getD_eq_getElem?_getD,
        List.getElem?_take_of_lt place, List.getD_eq_getElem?_getD]
    · have outside : ¬ (off ≤ k ∧ k < off + src.length) := by omega
      rw [if_neg early, if_neg outside]

/-- The number of indirect blocks. -/
def Dinode.indirects (d : Dinode) : Nat := if d.addr NDIRECT = 0 then 0 else 1

theorem Dinode.indirects_le (d : Dinode) : d.indirects ≤ 1 := by
  unfold indirects
  split <;> omega

theorem Laid.indirects {d : Dinode} {view : Nat → Block} {region : Set Nat} {count : Nat}
    (laid : Laid d view region count) (many : NDIRECT < count) : d.indirects = 1 :=
  if_neg (laid.indirect_used many)

/-- Other contents leave the blocks alone. -/
theorem Laid.write {d : Dinode} {view : Nat → Block} {region : Set Nat} {count k : Nat}
    (laid : Laid d view region count) (below : k < count) (data : Block) :
    Laid d (Function.update view (d.ref view k) data) region count := by
  have refs := laid.ref_write below data
  constructor
  · rw [refs]
    exact laid.maps
  · rw [refs]
    exact laid.full
  · exact laid.small

/-- Some bytes of one inode are replaced. -/
structure Edit (sb : Superblock) (inum : Nat) (d : Nat → Dinode) (count : Nat → Nat)
    (region : Nat → Set Nat) (view : Nat → Block) (off : Nat) (src : List UInt8)
    (e : Dinode) (c : Nat) (owns : Set Nat) (view' : Nat → Block) : Prop where
  owned : Owned sb (Function.update d inum e) (Function.update count inum c)
    (Function.update region inum owns) ∅ view'
  fields : e.toMeta = (d inum).toMeta
  below : ∀ x, x < sb.bmapstart → view' x = view x
  others : ∀ i, i ≠ inum → ∀ x, x ∈ region i → view' x = view x
  bytes : ∀ k, k < count inum * BSIZE ∨ off ≤ k ∧ k < off + src.length →
    e.byte view' k = patched ((d inum).byte view) off src k
  grows : count inum ≤ c
  space : (free sb view').card + c + e.indirects =
    (free sb view).card + count inum + (d inum).indirects
  indirect : (d inum).addr NDIRECT ≠ 0 → e.addr NDIRECT = (d inum).addr NDIRECT

namespace Edit

variable {sb : Superblock} {inum : Nat} {d : Nat → Dinode} {count : Nat → Nat}
  {region : Nat → Set Nat} {view view' view'' : Nat → Block} {off m c c' k b : Nat}
  {src : List UInt8} {e e' : Dinode} {owns owns' : Set Nat}

/-- Nothing changes. -/
theorem refl (owned : Owned sb d count region ∅ view) (off : Nat) :
    Edit sb inum d count region view off [] (d inum) (count inum) (region inum) view := by
  constructor
  · rwa [Function.update_eq_self, Function.update_eq_self, Function.update_eq_self]
  · rfl
  · exact fun x _ => rfl
  · exact fun i _ x _ => rfl
  · intro k _
    rw [patched_nil]
  · exact le_refl _
  · rfl
  · exact fun _ => rfl

/-- The rest of the bytes are replaced afterwards. -/
theorem trans
    (first : Edit sb inum d count region view off (src.take m) e c owns view')
    (second : Edit sb inum (Function.update d inum e) (Function.update count inum c)
      (Function.update region inum owns) view' (off + m) (src.drop m) e' c' owns' view'')
    (within : m ≤ src.length) (reached : off + m ≤ c * BSIZE ∨ m = 0) :
    Edit sb inum d count region view off src e' c' owns' view'' := by
  have owned := second.owned
  have fields := second.fields
  have bytes := second.bytes
  have grows := second.grows
  have space := second.space
  have indirect := second.indirect
  simp only [Function.update_idem, Function.update_self] at owned fields bytes
  simp only [Function.update_self] at grows space indirect
  constructor
  · exact owned
  · exact fields.trans first.fields
  · intro x below
    exact (second.below x below).trans (first.below x below)
  · intro i other x member
    have kept : x ∈ Function.update region inum owns i := by
      rwa [Function.update_of_ne other]
    exact (second.others i other x kept).trans (first.others i other x member)
  · intro k domain
    have grown : count inum * BSIZE ≤ c * BSIZE := Nat.mul_le_mul_right _ first.grows
    have length : (src.take m).length = m := by
      rw [List.length_take, Nat.min_eq_left within]
    rw [← patched_patched within]
    have rest : k < c * BSIZE ∨ off + m ≤ k ∧ k < off + m + (src.drop m).length := by
      rw [List.length_drop]
      omega
    rw [bytes k rest]
    unfold patched
    split
    · rfl
    · rename_i missed
      apply first.bytes
      rw [length]
      rw [List.length_drop] at missed
      omega
  · exact first.grows.trans grows
  · have before := first.space
    omega
  · intro here
    have same := first.indirect here
    rw [← same] at here ⊢
    exact indirect here

variable (owned : Owned sb d count region ∅ view)
include owned

/-- The inode gets a block that has just been allocated. -/
theorem grow (ordered : sb.Ordered) (live : Allocated sb d inum) (unused : b ∈ free sb view)
    (laid : Laid e view' (insert b (region inum)) c)
    (fields : e.toMeta = (d inum).toMeta)
    (same : ∀ x, x ∉ region inum → view' x = balloced sb view b x)
    (bytes : ∀ k, k < count inum * BSIZE → e.byte view' k = (d inum).byte view k)
    (grows : count inum ≤ c)
    (total : c + e.indirects = count inum + (d inum).indirects + 1)
    (indirect : (d inum).addr NDIRECT ≠ 0 → e.addr NDIRECT = (d inum).addr NDIRECT) :
    Edit sb inum d count region view off [] e c (insert b (region inum)) view' := by
  have bounds := mem_free.mp unused
  have pending := owned.balloced ordered unused
  have outside : ∀ x, x < sb.datastart → x ∉ region inum := by
    intro x low member
    have inside := owned.inside inum x member
    omega
  have marks : ∀ x, x < sb.size → used sb view' x = used sb (balloced sb view b) x := by
    intro x below
    exact used_congr (same _ (outside _ (ordered.bitmap x below)))
  constructor
  · apply pending.assign
    · intro i other x member
      have elsewhere : x ∉ region inum := by
        intro mine
        exact other (owned.once i inum x member mine)
      exact same x elsewhere
    · exact marks
    · intro _ _
      exact laid
    · intro dead
      exact absurd ⟨live.1, by rw [congrArg Meta.type fields]; exact live.2⟩ dead
    · intro x
      simp only [Set.mem_insert_iff, Set.mem_empty_iff_false, or_false]
      tauto
    · exact fun x _ loose => loose
  · exact fields
  · intro x below
    have early : x < sb.datastart := by
      have bitmap := ordered.bitmap b bounds.1
      have start : sb.bmapstart ≤ sb.BBLOCK b := Nat.le_add_left ..
      omega
    rw [same x (outside x early), owned.balloced_below ordered unused below]
  · intro i other x member
    have elsewhere : x ∉ region inum := by
      intro mine
      exact other (owned.once i inum x member mine)
    rw [same x elsewhere, owned.balloced_same ordered unused member]
  · intro k domain
    rw [patched_nil]
    rcases domain with domain | range
    · exact bytes k domain
    · rw [List.length_nil] at range
      omega
  · exact grows
  · have fewer : (free sb view').card + 1 = (free sb view).card := by
      rw [free_congr marks, owned.free_balloced ordered unused]
      exact Finset.card_erase_add_one unused
    omega
  · exact indirect

/-- Some bytes of one block are replaced. -/
theorem write (ordered : sb.Ordered) (live : Allocated sb d inum) (inside : k < count inum)
    (off : Nat) (place : off / BSIZE = k) (fits : off % BSIZE + src.length ≤ BSIZE) :
    Edit sb inum d count region view off src (d inum) (count inum) (region inum)
      (Function.update view ((d inum).ref view k)
        (splice (view ((d inum).ref view k)) (off % BSIZE) src)) := by
  have laid := owned.laid inum live
  have member := laid.mem inside
  have low := (owned.inside inum _ member).1
  have elsewhere : ∀ i, i ≠ inum → ∀ x, x ∈ region i → x ≠ (d inum).ref view k := by
    rintro i other x there rfl
    exact other (owned.once i inum _ there member)
  have bitmap : ∀ x, x < sb.size → sb.BBLOCK x ≠ (d inum).ref view k := by
    intro x below
    have bound := ordered.bitmap x below
    omega
  have marks : ∀ (data : Block) x, x < sb.size →
      used sb (Function.update view ((d inum).ref view k) data) x = used sb view x := by
    intro data x below
    exact used_congr (Function.update_of_ne (bitmap x below) ..)
  have positive : 0 < BSIZE := by simp [BSIZE]
  constructor
  · apply owned.assign
    · intro i other x there
      exact Function.update_of_ne (elsewhere i other x there) ..
    · exact marks _
    · intro _ _
      exact laid.write inside _
    · intro dead
      exact absurd live dead
    · exact fun x => Iff.rfl
    · exact fun x _ loose => loose
  · rfl
  · intro x below
    apply Function.update_of_ne
    have bound := ordered.bitmap _ (owned.inside inum _ member).2
    have start : sb.bmapstart ≤ sb.BBLOCK ((d inum).ref view k) := Nat.le_add_left ..
    omega
  · intro i other x there
    exact Function.update_of_ne (elsewhere i other x there) ..
  · intro j domain
    have rounded := Nat.div_add_mod off BSIZE
    have rounded' := Nat.div_add_mod j BSIZE
    have below := Nat.mod_lt j positive
    rw [Dinode.byte, laid.ref_write inside]
    by_cases here : j / BSIZE = k
    · rw [here, Function.update_self]
      rw [place, ← here] at rounded
      unfold patched
      split
      · rename_i range
        have at_off : j % BSIZE = off % BSIZE + (j - off) := by omega
        have short : j - off < src.length := by omega
        rw [at_off, byteAt_splice_inside short fits, List.getD_eq_getElem _ _ short]
      · rw [byteAt_splice_outside (by omega), Dinode.byte, here]
    · have missed : ¬ (off ≤ j ∧ j < off + src.length) := by
        rintro ⟨low, high⟩
        apply here
        rw [← place]
        apply le_antisymm _ (Nat.div_le_div_right low)
        rw [← Nat.lt_succ_iff, Nat.div_lt_iff_lt_mul positive, Nat.succ_mul, Nat.mul_comm]
        omega
      have count_lt : j / BSIZE < count inum := by
        rcases domain with domain | range
        · exact (Nat.div_lt_iff_lt_mul positive).mpr domain
        · exact absurd range missed
      have different : (d inum).ref view (j / BSIZE) ≠ (d inum).ref view k := by
        intro same
        exact here (laid.maps.once _ _ same (laid.used count_lt))
      rw [Function.update_of_ne different, patched, if_neg missed, Dinode.byte]
  · exact le_refl _
  · rw [free_congr (marks _)]
  · exact fun _ => rfl

omit owned

/-- Some bytes of one block are replaced after the inode has grown. -/
theorem overwrite (first : Edit sb inum d count region view off [] e c owns view')
    (ordered : sb.Ordered) (live : Allocated sb d inum) (inside : k < c)
    (place : off / BSIZE = k) (fits : off % BSIZE + src.length ≤ BSIZE) :
    Edit sb inum d count region view off src e c owns
      (Function.update view' (e.ref view' k)
        (splice (view' (e.ref view' k)) (off % BSIZE) src)) := by
  have still : Allocated sb (Function.update d inum e) inum := by
    refine ⟨live.1, ?_⟩
    rw [Function.update_self, congrArg Meta.type first.fields]
    exact live.2
  have written := write first.owned ordered still
    (show k < Function.update count inum c inum by rwa [Function.update_self]) off place fits
  simp only [Function.update_self] at written
  exact trans (m := 0) first written (Nat.zero_le _) (Or.inr rfl)

end Edit

/-! ## New blocks -/

theorem Superblock.Ordered.free_lt {sb : Superblock} {view : Nat → Block} {b : Nat}
    (ordered : sb.Ordered) (unused : b ∈ free sb view) : b < 2 ^ 32 := by
  have bounds := mem_free.mp unused
  have fits := ordered.fits
  omega

section Grow

variable {sb : Superblock} {inum : Nat} {d : Nat → Dinode} {count : Nat → Nat}
  {region : Nat → Set Nat} {view : Nat → Block} {off b k : Nat}
  (owned : Owned sb d count region ∅ view) (ordered : sb.Ordered)
  (live : Allocated sb d inum) (unused : b ∈ free sb view)

include owned ordered unused

theorem Owned.new_ne_zero : b ≠ 0 := by
  have bounds := mem_free.mp unused
  have low := (owned.fresh bounds.1 bounds.2).1
  have bitmap := ordered.bitmap b bounds.1
  omega

include live

/-- The references of the inode outlive the allocation of a block. -/
theorem Owned.ref_balloced : (d inum).ref (Fs.balloced sb view b) = (d inum).ref view :=
  (owned.laid inum live).ref_congr fun _ member => owned.balloced_same ordered unused member

theorem Owned.view_balloced (inside : k < count inum) :
    Fs.balloced sb view b ((d inum).ref view k) = view ((d inum).ref view k) :=
  owned.balloced_same ordered unused ((owned.laid inum live).mem inside)

/-- The first of the direct addresses that are not in use. -/
theorem Edit.direct (room : count inum < NDIRECT) :
    Edit sb inum d count region view off [] ((d inum).setAddr (count inum) b)
      (count inum + 1) (insert b (region inum)) (balloced sb view b) := by
  have laid := owned.laid inum live
  have refs : ((d inum).setAddr (count inum) b).ref (balloced sb view b) =
      Function.update ((d inum).ref view) (count inum) b := by
    rw [Dinode.ref_setAddr_direct room (ordered.free_lt unused),
      owned.ref_balloced ordered live unused]
  have bounds := mem_free.mp unused
  have other : NDIRECT ≠ count inum := by omega
  have same : ((d inum).setAddr (count inum) b).addr NDIRECT = (d inum).addr NDIRECT :=
    Dinode.addr_setAddr_other other
  apply Edit.grow owned ordered live unused
  · apply laid.extend _ (owned.new_ne_zero ordered unused)
      ((owned.fresh bounds.1 bounds.2).2.2 inum) refs
    simp only [MAXFILE]
    omega
  · rfl
  · exact fun x _ => rfl
  · intro k below
    have inside : k / BSIZE < count inum :=
      (Nat.div_lt_iff_lt_mul (by simp [BSIZE])).mpr below
    rw [Dinode.byte, refs, Function.update_of_ne (Nat.ne_of_lt inside),
      owned.view_balloced ordered live unused inside, Dinode.byte]
  · exact Nat.le_succ _
  · rw [Dinode.indirects, same, Dinode.indirects]
    omega
  · exact fun _ => same

/-- The indirect block. -/
theorem Edit.indirectBlock (empty : (d inum).addr NDIRECT = 0) :
    Edit sb inum d count region view off [] ((d inum).setAddr NDIRECT b)
      (count inum) (insert b (region inum)) (balloced sb view b) := by
  have laid := owned.laid inum live
  have positive := owned.new_ne_zero ordered unused
  have fits := ordered.free_lt unused
  have bounds := mem_free.mp unused
  have refs : ((d inum).setAddr NDIRECT b).ref (balloced sb view b) =
      Function.update ((d inum).ref view) MAXFILE b :=
    Dinode.ref_setAddr_indirect empty fits balloced_self
  have used : ((d inum).setAddr NDIRECT b).addr NDIRECT = b :=
    Dinode.addr_setAddr_same (Nat.lt_succ_self _) fits
  apply Edit.grow owned ordered live unused
  · exact laid.extend_indirect empty positive ((owned.fresh bounds.1 bounds.2).2.2 inum) refs
  · rfl
  · exact fun x _ => rfl
  · intro k below
    have inside : k / BSIZE < count inum :=
      (Nat.div_lt_iff_lt_mul (by simp [BSIZE])).mpr below
    have small := laid.small
    have other : k / BSIZE ≠ MAXFILE := by omega
    rw [Dinode.byte, refs, Function.update_of_ne other,
      owned.view_balloced ordered live unused inside, Dinode.byte]
  · exact le_refl _
  · simp [Dinode.indirects, used, positive, empty]
  · exact fun here => absurd empty here

/-- The first of the entries of the indirect block that are not in use. -/
theorem Edit.entry (used : (d inum).addr NDIRECT ≠ 0) (many : NDIRECT ≤ count inum)
    (room : count inum < MAXFILE) :
    Edit sb inum d count region view off [] (d inum) (count inum + 1)
      (insert b (region inum))
      (Function.update (balloced sb view b) ((d inum).addr NDIRECT)
        (setEntry (view ((d inum).addr NDIRECT)) (count inum - NDIRECT) b)) := by
  have laid := owned.laid inum live
  have bounds := mem_free.mp unused
  have indirect := laid.indirect used
  have refs : (d inum).ref (Function.update (balloced sb view b) ((d inum).addr NDIRECT)
      (setEntry (view ((d inum).addr NDIRECT)) (count inum - NDIRECT) b)) =
      Function.update ((d inum).ref view) (count inum) b := by
    apply Dinode.ref_setEntry used (by omega) room (ordered.free_lt unused)
    rw [Function.update_self]
  apply Edit.grow owned ordered live unused
  · exact laid.extend room (owned.new_ne_zero ordered unused)
      ((owned.fresh bounds.1 bounds.2).2.2 inum) refs
  · rfl
  · intro x outside
    apply Function.update_of_ne
    rintro rfl
    exact outside indirect
  · intro k below
    have inside : k / BSIZE < count inum :=
      (Nat.div_lt_iff_lt_mul (by simp [BSIZE])).mpr below
    rw [Dinode.byte, refs, Function.update_of_ne (Nat.ne_of_lt inside),
      Function.update_of_ne (laid.ref_ne_indirect inside),
      owned.view_balloced ordered live unused inside, Dinode.byte]
  · exact Nat.le_succ _
  · omega
  · exact fun _ => rfl

end Grow

end PiKernel.Fs
