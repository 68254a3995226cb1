import PiKernel.Fs.Contents
import PiKernel.Fs.Inodes

/-!
# `readi` and `writei` as operations on a sequence of bytes

On a consistent volume the contents of an inode are the bytes below its size.  `readi`
returns a part of them and changes nothing, and `writei` replaces a part of them or
extends them, as far as the volume and the log have room.
-/

namespace PiKernel.Fs

open PiKernel.Bytes
open PiKernel.Conc

variable {Pid : Type} [DecidableEq Pid] {sb : Superblock}
  {task : Tables Pid → Pid → Prog (Act Pid) Unit → Prop} {p : Pid} {mayPanic : String → Prop}
  {s : Blocks Pid} {ip : Fin NINODE}

/-! ## Consistent volumes -/

/-- The contents of an inode: its first `size` bytes. -/
def contents (sb : Superblock) (view : Nat → Block) (inum : Nat) : List UInt8 :=
  (dinode sb view inum).slice view 0 (dinode sb view inum).size.toNat

/-- The number of blocks of every inode. -/
def counts (sb : Superblock) (view : Nat → Block) (inum : Nat) : Nat :=
  blocks (dinode sb view inum).size.toNat

/--
The bitmap marks the blocks before the data area and those of the inodes, each of which
has its blocks up to its size and no others.
-/
structure Consistent (sb : Superblock) (view : Nat → Block) : Prop where
  ordered : sb.Ordered
  owned : ∃ region, Owned sb (dinode sb view) (counts sb view) region ∅ view

/-- The process has locked a regular file or directory, and no buffer is in use. -/
structure Locked (sb : Superblock) (s : Blocks Pid) (p : Pid) (ip : Fin NINODE) : Prop where
  mine : s.lock ip = some p
  valid : s.valid ip = true
  inside : s.inum ip < sb.ninodes
  copy : s.inode ip = dinode sb s.view (s.inum ip)
  type : (s.inode ip).type = T_FILE ∨ (s.inode ip).type = T_DIR
  quiet : ∀ b, s.holder b = none

theorem length_contents {view : Nat → Block} {inum : Nat} :
    (contents sb view inum).length = (dinode sb view inum).size.toNat := by
  simp [contents, Dinode.slice]

/-- What is not on the volume does not matter. -/
theorem Owned.congr_inodes {d d' : Nat → Dinode} {count count' : Nat → Nat}
    {region : Nat → Set Nat} {pending : Set Nat} {view : Nat → Block}
    (owned : Owned sb d count region pending view)
    (inodes : ∀ i, i < sb.ninodes → d' i = d i)
    (counts : ∀ i, i < sb.ninodes → count' i = count i) :
    Owned sb d' count' region pending view := by
  have allocated : ∀ i, Allocated sb d' i ↔ Allocated sb d i := by
    intro i
    unfold Allocated
    constructor
    · rintro ⟨inside, type⟩
      exact ⟨inside, inodes i inside ▸ type⟩
    · rintro ⟨inside, type⟩
      exact ⟨inside, (inodes i inside).symm ▸ type⟩
  constructor
  · intro i live
    rw [inodes i live.1, counts i live.1]
    exact owned.laid i ((allocated i).mp live)
  · intro i dead
    exact owned.none i fun live => dead ((allocated i).mpr live)
  · exact owned.once
  · exact owned.apart
  · exact owned.inside
  · exact owned.loose
  · exact owned.marked

/-! ## The actions -/

theorem slice_drop_take {d : Dinode} {view : Nat → Block} {size off n : Nat} :
    ((d.slice view 0 size).drop off).take n = d.slice view off (min n (size - off)) := by
  apply List.ext_getElem
  · simp [Dinode.slice]
  · intro k first second
    simp [Dinode.slice]

/-- Read data from inode. -/
theorem readBytes_ends {owns : Set Nat} {off n : Nat}
    {post : Option (List UInt8) → Blocks Pid → Prop} (quiet : ∀ b, s.holder b = none)
    (laid : Laid (s.inode ip) s.view owns (blocks (s.inode ip).size.toNat))
    (holds : post
      (if (s.inode ip).size.toNat < off ∨ 2 ^ 64 ≤ off + n then none
        else some ((((s.inode ip).slice s.view 0 (s.inode ip).size.toNat).drop off).take n)) s) :
    (blocksSystem sb task).Ends p mayPanic post (readBytes sb ip off n) s := by
  apply System.Ends.step rfl
  rw [slice_drop_take] at holds
  unfold Files.readCount
  split <;> rename_i count
  · split at count
    · rename_i refused
      rw [if_pos refused] at holds
      exact System.Ends.ret holds
    · cases count
  · rename_i m
    split at count
    · cases count
    · rename_i accepted
      rw [if_neg accepted] at holds
      have length : m = min n ((s.inode ip).size.toNat - off) := by
        rw [← Option.some.inj count]
        split <;> omega
      rw [← length] at holds
      apply System.Ends.bind
      apply readLoop_ends quiet laid
      · have reached := blocks_le_iff.mp (le_refl (blocks (s.inode ip).size.toNat))
        omega
      · intro _
        unfold span
        omega
      · exact System.Ends.ret holds

/-! ## The end of `writei` -/

/-- The contents after some bytes have been replaced. -/
theorem slice_patched {f g : Nat → UInt8} {size off : Nat} {src : List UInt8}
    (start : off ≤ size)
    (same : ∀ k, k < max size (off + src.length) → g k = patched f off src k) :
    (List.range (max size (off + src.length))).map g =
      ((List.range size).map f).take off ++ src ++
        ((List.range size).map f).drop (off + src.length) := by
  apply List.ext_getElem
  · simp only [List.length_map, List.length_range, List.length_append, List.length_take,
      List.length_drop]
    omega
  · intro k first second
    simp only [List.length_map, List.length_range] at first
    simp only [List.getElem_map, List.getElem_range]
    rw [same k first, patched]
    simp only [List.getElem_append, List.length_append, List.length_take, List.length_map,
      List.length_range, List.getElem_take, List.getElem_map, List.getElem_range,
      List.getElem_drop]
    split <;> rename_i inside
    · have early : ¬ k < min off size := by omega
      have within : k < min off size + src.length := by omega
      have place : k - off < src.length := by omega
      rw [dif_pos within, dif_neg early, List.getD_eq_getElem _ _ place]
      simp only [Nat.min_eq_left start]
    · split
      · split
        · rfl
        · omega
      · congr 1
        omega

theorem blocks_max {first second : Nat} :
    max (blocks first) (blocks second) = blocks (max first second) := by
  simp only [blocks, BSIZE]
  omega

/-- What an accepted `writei` leaves. -/
structure Rewritten (sb : Superblock) (view : Nat → Block) (inum off : Nat)
    (src : List UInt8) (view' : Nat → Block) : Prop where
  consistent : Consistent sb view'
  contents : contents sb view' inum =
    (contents sb view inum).take off ++ src ++ (contents sb view inum).drop (off + src.length)
  fields : (dinode sb view' inum).toMeta =
    { (dinode sb view inum).toMeta with
      size := UInt32.ofNat (max (dinode sb view inum).size.toNat (off + src.length)) }
  others : ∀ j, j < sb.ninodes → j ≠ inum → dinode sb view' j = dinode sb view j ∧
    ((dinode sb view j).type ≠ 0 → Fs.contents sb view' j = Fs.contents sb view j)
  total : counts sb view' inum + (dinode sb view' inum).indirects =
    counts sb view inum + (dinode sb view inum).indirects +
      newBlocks (dinode sb view inum) (counts sb view inum) (blocks (off + src.length))
  space : (free sb view').card +
    newBlocks (dinode sb view inum) (counts sb view inum) (blocks (off + src.length)) =
      (free sb view).card

namespace Rewritten

variable {inum off : Nat} {view view' view'' : Nat → Block} {src more : List UInt8}
  (start : off ≤ (dinode sb view inum).size.toNat)
  (rewritten : Rewritten sb view inum off src view')

include start rewritten

theorem size : (dinode sb view' inum).size.toNat =
    max (dinode sb view inum).size.toNat (off + src.length) := by
  have length := congrArg List.length rewritten.contents
  simp only [List.length_append, List.length_take, List.length_drop, length_contents] at length
  omega

theorem count : counts sb view' inum = max (counts sb view inum) (blocks (off + src.length)) := by
  rw [counts, rewritten.size start, ← blocks_max, counts]

/-- What a longer write needs besides. -/
theorem newBlocks_eq {last : Nat} (within : blocks (off + src.length) ≤ last)
    (many : NDIRECT < counts sb view inum → (dinode sb view inum).indirects = 1) :
    newBlocks (dinode sb view inum) (counts sb view inum) last =
      newBlocks (dinode sb view inum) (counts sb view inum) (blocks (off + src.length)) +
        newBlocks (dinode sb view' inum) (counts sb view' inum) last := by
  have total := rewritten.total
  rw [rewritten.count start] at total ⊢
  exact newBlocks_split within many total

/-- Two parts that are written one after the other. -/
theorem append (many : NDIRECT < counts sb view inum → (dinode sb view inum).indirects = 1)
    (later : Rewritten sb view' inum (off + src.length) more view'') :
    Rewritten sb view inum off (src ++ more) view'' := by
  have size := rewritten.size start
  have next : off + src.length ≤ (dinode sb view' inum).size.toNat := by
    rw [size]
    exact Nat.le_max_right ..
  have longer : blocks (off + src.length) ≤ blocks (off + (src ++ more).length) := by
    rw [List.length_append]
    simp only [blocks, BSIZE]
    omega
  have needs := rewritten.newBlocks_eq start longer many
  have total := rewritten.total
  have total' := later.total
  have space := rewritten.space
  have space' := later.space
  rw [Nat.add_assoc off, ← List.length_append] at total' space'
  constructor
  · exact later.consistent
  · have length : (Fs.contents sb view inum).length = (dinode sb view inum).size.toNat :=
      length_contents
    rw [later.contents, rewritten.contents]
    have reached : ((Fs.contents sb view inum).take off ++ src).length = off + src.length := by
      rw [List.length_append, List.length_take]
      omega
    rw [List.take_append_of_le_length reached.ge, List.take_of_length_le reached.le,
      List.drop_append, List.drop_eq_nil_of_le (by omega), reached, List.nil_append,
      List.drop_drop, List.length_append, List.append_assoc _ src more,
      Nat.add_sub_cancel_left, Nat.add_assoc]
  · have size' : max (max (dinode sb view inum).size.toNat (off + src.length))
        (off + src.length + more.length) =
          max (dinode sb view inum).size.toNat (off + (src ++ more).length) := by
      rw [List.length_append]
      omega
    rw [later.fields, size, rewritten.fields, size']
  · intro j inside different
    have first := rewritten.others j inside different
    have second := later.others j inside different
    refine ⟨second.1.trans first.1, fun allocated => ?_⟩
    rw [second.2 (by rwa [first.1]), first.2 allocated]
  · omega
  · omega

end Rewritten

/-- The loop and perhaps `iupdate`, which changes one dinode. -/
theorem Written.rewritten {touch : Bool} {inum off : Nat} {view view' view'' : Nat → Block}
    {before bs : List Nat} {src : List UInt8} {e e' : Dinode} {owns : Set Nat}
    {region : Nat → Set Nat} (ordered : sb.Ordered)
    (owned : Owned sb (dinode sb view) (counts sb view) region ∅ view)
    (live : Allocated sb (dinode sb view) inum)
    (start : off ≤ (dinode sb view inum).size.toNat)
    (written : Written sb touch inum (dinode sb view) (counts sb view) region view before off
      src e owns view' bs)
    (other : ∀ x, x ≠ sb.IBLOCK inum → view'' x = view' x)
    (dinodes : ∀ j, j < sb.ninodes →
      dinode sb view'' j = if j = inum then e' else dinode sb view j)
    (addrs : e'.addrs = e.addrs)
    (fields : e'.toMeta = { (dinode sb view inum).toMeta with
      size := UInt32.ofNat (max (dinode sb view inum).size.toNat (off + src.length)) })
    (size : e'.size.toNat = max (dinode sb view inum).size.toNat (off + src.length)) :
    Rewritten sb view inum off src view'' := by
  have edit := written.edit
  have type : e'.type = (dinode sb view inum).type := by
    rw [fields]
  have early := ordered.inodes inum live.1
  have count : max (counts sb view inum) (blocks (off + src.length)) = blocks e'.size.toNat := by
    rw [size, counts, blocks_max]
  have still : Allocated sb (Function.update (dinode sb view) inum e) inum := by
    refine ⟨live.1, ?_⟩
    rw [Function.update_self, congrArg Meta.type edit.fields]
    exact live.2
  have laid := edit.owned.laid inum still
  have same : e'.indirects = e.indirects := by
    rw [Dinode.indirects, Dinode.addr_of_addrs addrs, Dinode.indirects]
  have total := written.total
  have space := edit.space
  rw [count] at laid edit total space
  simp only [Function.update_self] at laid
  have low : ∀ i x, x ∈ Function.update region inum owns i → x ≠ sb.IBLOCK inum := by
    intro i x member
    have bounds := edit.owned.inside i x member
    have bitmap := ordered.bitmap x bounds.2
    have start : sb.bmapstart ≤ sb.BBLOCK x := Nat.le_add_left ..
    omega
  have mine : ∀ x, x ∈ owns → view'' x = view' x := by
    intro x member
    apply other x (low inum x _)
    rwa [Function.update_self]
  have marks : ∀ x, x < sb.size → used sb view'' x = used sb view' x := by
    intro x below
    apply used_congr
    apply other
    have start : sb.bmapstart ≤ sb.BBLOCK x := Nat.le_add_left ..
    omega
  have whole : Owned sb (Function.update (dinode sb view) inum e')
      (Function.update (counts sb view) inum (blocks e'.size.toNat))
      (Function.update region inum owns) ∅ view'' := by
    have assigned : Owned sb (Function.update (Function.update (dinode sb view) inum e) inum e')
        (Function.update (Function.update (counts sb view) inum (blocks e'.size.toNat)) inum
          (blocks e'.size.toNat))
        (Function.update (Function.update region inum owns) inum owns) ∅ view'' := by
      apply edit.owned.assign
      · intro i _ x member
        exact other x (low i x member)
      · exact marks
      · intro _ _
        exact (laid.congr mine).of_addrs addrs
      · intro dead
        exact absurd ⟨live.1, type ▸ live.2⟩ dead
      · intro x
        rw [Function.update_self]
      · exact fun _ _ loose => loose
    simpa only [Function.update_idem] using assigned
  have region_other : ∀ j, j ≠ inum → ∀ x, x ∈ region j → view'' x = view x := by
    intro j different x member
    rw [other x, edit.others j different x member]
    apply low j x
    rwa [Function.update_of_ne different]
  constructor
  · refine ⟨ordered, Function.update region inum owns, ?_⟩
    apply whole.congr_inodes
    · intro i inside
      rw [dinodes i inside, Function.update_apply]
    · intro i inside
      rw [counts, dinodes i inside, Function.update_apply, counts]
      split <;> rfl
  · rw [contents, dinodes inum live.1, if_pos rfl, size]
    simp only [Dinode.slice, Nat.zero_add]
    have old : contents sb view inum =
        (List.range (dinode sb view inum).size.toNat).map ((dinode sb view inum).byte view) := by
      simp [contents, Dinode.slice]
    rw [old]
    apply slice_patched start
    intro k below
    rw [← size] at below
    rw [Dinode.byte_of_addrs addrs, laid.byte_congr mine (div_lt_blocks below)]
    apply edit.bytes
    rw [counts]
    have reached := blocks_le_iff.mp (le_refl (blocks (dinode sb view inum).size.toNat))
    omega
  · rw [dinodes inum live.1, if_pos rfl]
    exact fields
  · intro j inside different
    have same : dinode sb view'' j = dinode sb view j := by
      rw [dinodes j inside, if_neg different]
    refine ⟨same, fun allocated => ?_⟩
    rw [contents, same, contents]
    apply List.map_congr_left
    intro k member
    have below := List.mem_range.mp member
    rw [Nat.zero_add]
    apply (owned.laid j ⟨inside, allocated⟩).byte_congr (region_other j different)
    exact div_lt_blocks below
  · rw [counts, dinodes inum live.1, if_pos rfl, same]
    exact total
  · rw [free_congr marks]
    omega

section Written

variable {touch : Bool} {inum off : Nat} {view view' : Nat → Block} {before bs : List Nat}
  {src : List UInt8} {e : Dinode} {owns : Set Nat} {region : Nat → Set Nat}
  (ordered : sb.Ordered) (owned : Owned sb (dinode sb view) (counts sb view) region ∅ view)
  (live : Allocated sb (dinode sb view) inum)
  (start : off ≤ (dinode sb view inum).size.toNat)
  (written : Written sb touch inum (dinode sb view) (counts sb view) region view before off
    src e owns view' bs)

include ordered owned live start written

/-- The file does not grow. -/
theorem Written.kept (within : off + src.length ≤ (dinode sb view inum).size.toNat) :
    Rewritten sb view inum off src view' ∧ dinode sb view' inum = e := by
  have reached : blocks (off + src.length) ≤ counts sb view inum := by
    rw [counts, ← Nat.max_eq_left within, ← blocks_max]
    exact Nat.le_max_right ..
  have same := written.same reached
  have dinodes : ∀ j, j < sb.ninodes → dinode sb view' j = dinode sb view j := by
    intro j inside
    exact dinode_congr (written.edit.below _ (ordered.inodes j inside))
  constructor
  · apply written.rewritten ordered owned live start (fun _ _ => rfl)
    · intro j inside
      rw [dinodes j inside]
      split <;> rename_i here
      · rw [here, ← same]
      · rfl
    · rfl
    · rw [same, Nat.max_eq_left within]
      simp
    · rw [same, Nat.max_eq_left within]
  · rw [dinodes inum live.1, same]

/-- The file grows, and its fields are written back. -/
theorem Written.grown (grows : (dinode sb view inum).size.toNat < off + src.length)
    (fits : off + src.length ≤ MAXFILE * BSIZE) :
    Rewritten sb view inum off src
      (setDinode sb view' inum { e with size := UInt32.ofNat (off + src.length) }) := by
  have reached : max (dinode sb view inum).size.toNat (off + src.length) = off + src.length :=
    Nat.max_eq_right (Nat.le_of_lt grows)
  apply written.rewritten ordered owned live start
  · exact fun x other => setDinode_other other
  · intro j inside
    rw [dinode_setDinode, dinode_congr (written.edit.below _ (ordered.inodes j inside))]
  · rfl
  · rw [reached, ← written.edit.fields]
  · rw [reached]
    simp only [MAXFILE, NDIRECT, NINDIRECT, BSIZE] at fits
    simp only [UInt32.toNat_ofNat']
    omega

end Written

/-- What `writei` logs is what it has been said to cost. -/
theorem cost_le {e : Dinode} {size off n : Nat} (start : off ≤ size)
    (many : NDIRECT < blocks size → e.indirects = 1) :
    spanned off n + newBlocks e (blocks size) (blocks (off + n)) +
        (decide (blocks size < blocks (off + n) ∧ NDIRECT < blocks (off + n))).toNat ≤
      writeCost size off n := by
  have least : blocks off ≤ blocks size := by
    rw [← Nat.max_eq_right start, ← blocks_max]
    exact Nat.le_max_left ..
  unfold spanned newBlocks writeCost
  by_cases nothing : n = 0
  · subst nothing
    have short : ¬ blocks size < blocks off := by omega
    have done : NDIRECT < blocks off → e.indirects = 1 := fun large => many (by omega)
    simp only [if_true, Nat.add_zero, short, false_and, decide_false, Bool.toNat_false]
    split <;> rename_i large
    · rw [done large]
      omega
    · omega
  · rw [if_neg nothing, if_neg nothing]
    by_cases grows : blocks size < blocks (off + n) ∧ NDIRECT < blocks (off + n)
    · simp only [grows.2, if_true, grows, and_self, decide_true, Bool.toNat_true]
      split <;> rename_i few
      · omega
      · rw [many (by omega)]
        omega
    · rw [if_neg grows, decide_eq_false grows, Bool.toNat_false]
      split <;> rename_i large
      · rw [many (by omega)]
        omega
      · omega

theorem card_erase_concat {b : Nat} {bs : List Nat} :
    ((bs ++ [b]).toFinset.erase b).card ≤ bs.toFinset.card := by
  apply Finset.card_le_card
  intro x member
  simp only [Finset.mem_erase, List.mem_toFinset, List.mem_append, List.mem_singleton] at member
  rw [List.mem_toFinset]
  exact member.2.resolve_right member.1

theorem writable_iff {size off n : Nat} : Files.writable size off n = true ↔
    ¬ (size < off ∨ 2 ^ 64 ≤ off + n ∨ MAXFILE * BSIZE < off + n) := by
  simp [Files.writable]
  omega

/-- The blocks that `writei` may log: if the file grows, that of the inode is one of them. -/
def writeBlocks (size off n : Nat) : Nat :=
  writeCost size off n + if size < off + n then 1 else 0

/-- Something is logged. -/
theorem writeCost_pos (size off : Nat) {n : Nat} (some : n ≠ 0) :
    0 < writeCost size off n := by
  have below : off / BSIZE < blocks (off + n) := div_lt_blocks (by omega)
  rw [writeCost, if_neg some]
  omega

/-- Write data to inode. -/
theorem writeBytes_ends {off : Nat} {src : List UInt8} {post : Option Nat → Blocks Pid → Prop}
    (consistent : Consistent sb s.view) (quiet : ∀ b, s.holder b = none)
    (live : Allocated sb (dinode sb s.view) (s.inum ip))
    (copy : s.inode ip = dinode sb s.view (s.inum ip))
    (space : Files.writable (s.inode ip).size.toNat off src.length = true → src.length ≠ 0 →
      (free sb s.view).card <
        newBlocks (s.inode ip) (blocks (s.inode ip).size.toNat) (blocks (off + src.length)) →
      mayPanic outOfBlocks)
    (full : Files.writable (s.inode ip).size.toNat off src.length = true → src.length ≠ 0 →
      s.log.limit < s.log.lh.n + writeBlocks (s.inode ip).size.toNat off src.length →
      mayPanic logFull)
    (refused : Files.writable (s.inode ip).size.toNat off src.length = false → post none s)
    (accepted : Files.writable (s.inode ip).size.toNat off src.length = true →
      ∀ view e bs, Rewritten sb s.view (s.inum ip) off src view →
      e = dinode sb view (s.inum ip) →
      (bs.toFinset.erase (sb.IBLOCK (s.inum ip))).card ≤
        writeCost (s.inode ip).size.toNat off src.length →
      post (some src.length)
        { s with
          view := view
          inode := Function.update s.inode ip e
          toOps := s.toOps.absorbs p bs }) :
    (blocksSystem sb task).Ends p mayPanic post (writeBytes sb ip off src) s := by
  rcases consistent with ⟨ordered, region, owned⟩
  apply System.Ends.step rfl
  split <;> rename_i check
  · apply System.Ends.ret
    apply refused
    simpa using check
  · have allowed : Files.writable (s.inode ip).size.toNat off src.length = true := by
      simpa using check
    have holds := accepted allowed
    have full := full allowed
    have space := space allowed
    unfold Files.writable at allowed
    simp only [Bool.not_eq_true', Bool.or_eq_false_iff, decide_eq_false_iff_not, not_lt,
      ge_iff_le, gt_iff_lt] at allowed
    rcases allowed with ⟨⟨start, _⟩, fits⟩
    rw [copy] at start holds full space
    have laid := owned.laid _ live
    have cost := cost_le (n := src.length) start laid.indirects
    have early := ordered.inodes _ live.1
    have logged : s.toOps = s.toOps.absorbs p [] := rfl
    -- The block of the inode is logged last; without it the last block of the contents.
    let budget := writeBlocks (dinode sb s.view (s.inum ip)).size.toNat off src.length - 1
    have exceeded : src.length ≠ 0 → s.log.limit ≤ s.log.lh.n + budget → mayPanic logFull := by
      intro some short
      apply full some
      have positive := writeCost_pos (dinode sb s.view (s.inum ip)).size.toNat off some
      unfold budget writeBlocks at short
      unfold writeBlocks
      omega
    apply System.Ends.bind
    apply writeLoop_ends ordered exceeded quiet owned copy.symm live logged
    · exact start.trans (blocks_le_iff.mp le_rfl)
    · exact fits
    · rw [spanned, span]
      split <;> omega
    · exact fun grows many => decide_eq_true (And.intro grows many)
    · rw [copy]
      exact space
    · rw [copy, weight_nil, Nat.zero_add]
      apply cost.trans
      unfold budget writeBlocks slack counts
      split <;> rename_i grows
      · omega
      · rw [if_pos]
        · omega
        · rw [← Nat.max_eq_left (Nat.not_lt.mp grows), ← blocks_max]
          exact Nat.le_max_right ..
    · intro e owns view bs written
      have card : bs.toFinset.card ≤
          writeCost (dinode sb s.view (s.inum ip)).size.toNat off src.length :=
        written.card_le.trans cost
      have size : e.size = (dinode sb s.view (s.inum ip)).size :=
        congrArg Meta.size written.edit.fields
      apply System.Ends.step rfl
      dsimp only
      rw [List.nil_append, Function.update_self, size]
      split <;> rename_i grows
      · simp only [Bool.and_eq_true, decide_eq_true_eq] at grows
        have rewritten := written.grown ordered owned live start grows.2 fits
        apply System.Ends.step rfl
        apply System.Ends.bind
        apply iupdate_ends
        · exact quiet _
        · have last : bs.toFinset.card + 0 ≤ budget := by
            unfold budget writeBlocks
            rw [if_pos grows.2]
            exact card
          exact full_of_absorbs (exceeded (Nat.pos_iff_ne_zero.mp grows.1)) last
        · apply System.Ends.ret
          simp only [Function.update_idem, Function.update_self]
          have logs : ((bs ++ [sb.IBLOCK (s.inum ip)]).toFinset.erase
              (sb.IBLOCK (s.inum ip))).card ≤ _ := card_erase_concat.trans card
          have state := holds _ _ _ rewritten rfl logs
          rw [dinode_setDinode, if_pos rfl, Logging.Ops.absorbs_concat] at state
          exact state
      · have kept : Rewritten sb s.view (s.inum ip) off src view ∧
            dinode sb view (s.inum ip) = e := by
          apply written.kept ordered owned live start
          simp only [Bool.and_eq_true, decide_eq_true_eq] at grows
          omega
        apply System.Ends.ret
        apply holds
        · exact kept.1
        · exact kept.2.symm
        · exact (Finset.card_le_card (Finset.erase_subset _ _)).trans card

end PiKernel.Fs
