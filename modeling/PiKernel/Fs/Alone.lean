import PiKernel.Fs.Volume
import PiKernel.Logging.Client
import PiKernel.Conc.Alone

/-!
# Blocks of one process running alone

The programs that allocate and free blocks and that copy inodes from and to the disk,
where no other process runs.  Each either ends as stated or stops as the volume or the
log is full, and the conditions say when that may happen.
-/

namespace PiKernel.Logging

open PiKernel.Conc

variable {Pid : Type} [DecidableEq Pid]

/-! ## What an operation logs -/

/-- So many blocks fit into the log. -/
def Log.limit (log : Log) : Nat := min LOGSIZE (log.size - 1)

theorem Log.tooBig_iff {log : Log} : log.tooBig = true ↔ log.limit ≤ log.lh.n := by
  simp only [Log.tooBig, Log.limit, Bool.or_eq_true, decide_eq_true_eq]
  omega

namespace Ops

/-- Some blocks are logged, in order. -/
def absorbs (s : Ops Pid) (p : Pid) (bs : List Nat) : Ops Pid :=
  bs.foldl (fun s b => s.absorb p b) s

variable {s : Ops Pid} {p : Pid} {b : Nat} {bs more : List Nat}

@[simp]
theorem absorbs_nil : s.absorbs p [] = s :=
  rfl

theorem absorbs_append : s.absorbs p (bs ++ more) = (s.absorbs p bs).absorbs p more :=
  List.foldl_append

theorem absorbs_concat : s.absorbs p (bs ++ [b]) = (s.absorbs p bs).absorb p b := by
  rw [absorbs_append]
  rfl

@[simp]
theorem absorbs_limit : (s.absorbs p bs).log.limit = s.log.limit := by
  induction bs generalizing s with
  | nil => rfl
  | cons b bs ih => exact ih

@[simp]
theorem absorbs_outstanding : (s.absorbs p bs).log.outstanding = s.log.outstanding := by
  induction bs generalizing s with
  | nil => rfl
  | cons b bs ih => exact ih

@[simp]
theorem absorbs_committing : (s.absorbs p bs).log.committing = s.log.committing := by
  induction bs generalizing s with
  | nil => rfl
  | cons b bs ih => exact ih

theorem absorbs_logged (member : b ∈ bs) : b ∈ (s.absorbs p bs).log.lh.blocks := by
  induction bs using List.reverseRecOn with
  | nil => cases member
  | append_singleton bs last ih =>
      rw [absorbs_append]
      apply LogHeader.mem_blocks_absorb.mpr
      rcases List.mem_append.mp member with member | member
      · exact Or.inr (ih member)
      · exact Or.inl (List.mem_singleton.mp member)

/-- The log grows by the blocks that it has not got yet. -/
theorem absorbs_n_le : (s.absorbs p bs).log.lh.n ≤ s.log.lh.n + bs.toFinset.card := by
  induction bs using List.reverseRecOn with
  | nil => simp
  | append_singleton bs last ih =>
      rw [absorbs_append, List.toFinset_append]
      change ((s.absorbs p bs).log.lh.absorb last).n ≤ _
      by_cases here : last ∈ bs
      · rw [LogHeader.absorb_of_mem (absorbs_logged here)]
        have part : bs.toFinset ⊆ bs.toFinset ∪ [last].toFinset := Finset.subset_union_left
        have more := Finset.card_le_card part
        omega
      · have grows := (s.absorbs p bs).log.lh.absorb_n_le (b := last)
        have apart : Disjoint bs.toFinset [last].toFinset := by
          simpa using here
        rw [Finset.card_union_of_disjoint apart]
        simp only [List.toFinset_cons, List.toFinset_nil, insert_empty_eq,
          Finset.card_singleton]
        omega

end Ops

end PiKernel.Logging

namespace PiKernel.Fs

open PiKernel.Bytes
open PiKernel.Conc

variable {Pid : Type} [DecidableEq Pid] {sb : Superblock}
  {task : Tables Pid → Pid → Prog (Act Pid) Unit → Prop} {p : Pid} {mayPanic : String → Prop}
  {s : Blocks Pid} {b inum : Nat} {ip : Fin NINODE}

/-! ## Rules for actions -/

/-- The message of `log_write` when the log is full. -/
def logFull : String := "log_write: too big a transaction\n"

/-- The message of `balloc` when the volume is full. -/
def outOfBlocks : String := "balloc: out of blocks\n"

omit [DecidableEq Pid] in
theorem released {holder : Nat → Option Pid} (free : holder b = none) (q : Option Pid) :
    Function.update (Function.update holder b q) b none = holder := by
  rw [Function.update_idem, ← free, Function.update_eq_self]

theorem bread_ends {α : Type} {post : α → Blocks Pid → Prop} {next : Unit → Prog (Low Pid) α}
    (free : s.holder b = none)
    (later : (blocksSystem sb task).Ends p mayPanic post (next ())
      { s with holder := Function.update s.holder b (some p) }) :
    (blocksSystem sb task).Ends p mayPanic post (block (.bread b) >>= next) s := by
  apply System.Ends.step _ later
  simp [blocksSystem, Blocks.exec, BlockAct.exec, free]

theorem logWrite_ends {post : Unit → Blocks Pid → Prop}
    (full : s.log.limit ≤ s.log.lh.n → mayPanic logFull)
    (holds : post () { s with toOps := s.toOps.absorb p b }) :
    (blocksSystem sb task).Ends p mayPanic post (logWrite b) s := by
  apply System.Ends.step rfl
  split <;> rename_i tooBig
  · exact System.Ends.panic (full (Logging.Log.tooBig_iff.mp tooBig))
  · exact System.Ends.perform rfl holds

/-! ## The allocator -/

theorem bzero_ends {post : Unit → Blocks Pid → Prop} (free : s.holder b = none)
    (full : s.log.limit ≤ s.log.lh.n → mayPanic logFull)
    (holds : post ()
      { s with
        view := Function.update s.view b zeroBlock
        toOps := s.toOps.absorb p b }) :
    (blocksSystem sb task).Ends p mayPanic post (bzero b) s := by
  apply bread_ends free
  apply System.Ends.step rfl
  apply System.Ends.bind
  apply logWrite_ends
  · exact full
  · apply System.Ends.perform rfl
    simpa only [released free] using holds

/-- No process has a buffer that the allocator may need. -/
def Quiet (sb : Superblock) (s : Blocks Pid) : Prop :=
  ∀ b, b < sb.datastart ∨ b ∈ free sb s.view → s.holder b = none

omit [DecidableEq Pid] in
theorem Quiet.of_free (quiet : ∀ b, s.holder b = none) : Quiet sb s :=
  fun b _ => quiet b

/-- What `balloc` does to the blocks. -/
def balloced (sb : Superblock) (view : Nat → Block) (b : Nat) : Nat → Block :=
  Function.update (mark sb view b) b zeroBlock

theorem firstFree_some {data : Block} {bound bi : Nat}
    (found : firstFree data bound = some bi) : bi < bound ∧ bit data bi = false := by
  constructor
  · exact List.mem_range.mp (List.mem_of_find?_eq_some found)
  · simpa using List.find?_some found

theorem firstFree_none {data : Block} {bound bi : Nat}
    (none : firstFree data bound = none) (below : bi < bound) : bit data bi = true := by
  have all := List.find?_eq_none.mp none bi (List.mem_range.mpr below)
  simpa using all

/-- The blocks of one bitmap block. -/
theorem row_place {row bi : Nat} (inside : bi < BPB) :
    (row * BPB + bi) / BPB = row ∧ (row * BPB + bi) % BPB = bi := by
  have positive : 0 < BPB := by simp [BPB, BSIZE]
  rw [Nat.mul_comm, Nat.mul_add_div positive, Nat.div_eq_of_lt inside, Nat.mul_add_mod,
    Nat.mod_eq_of_lt inside]
  exact ⟨rfl, rfl⟩

theorem BBLOCK_row {row bi : Nat} (inside : bi < BPB) :
    sb.BBLOCK (row * BPB + bi) = sb.BBLOCK (row * BPB) := by
  have positive : 0 < BPB := by simp [BPB, BSIZE]
  rw [BBLOCK_eq_iff, (row_place inside).1, Nat.mul_div_cancel _ positive]

theorem used_row {view : Nat → Block} {row bi : Nat} (inside : bi < BPB) :
    used sb view (row * BPB + bi) = bit (view (sb.BBLOCK (row * BPB))) bi := by
  rw [used, BBLOCK_row inside, (row_place inside).2]

theorem ballocLoop_ends {post : Nat → Blocks Pid → Prop} (ordered : sb.Ordered)
    (quiet : Quiet sb s)
    (space : free sb s.view = ∅ → mayPanic outOfBlocks)
    (full : s.log.limit ≤ s.log.lh.n + 1 → mayPanic logFull)
    (holds : ∀ b, b ∈ free sb s.view → post b
      { s with
        view := balloced sb s.view b
        toOps := s.toOps.absorbs p [sb.BBLOCK b, b] })
    (count row : Nat) (total : (sb.size + BPB - 1) / BPB = row + count)
    (before : ∀ x, x < row * BPB → x ∉ free sb s.view) :
    (blocksSystem sb task).Ends p mayPanic post (ballocLoop sb count (row * BPB)) s := by
  have positive : 0 < BPB := by simp [BPB, BSIZE]
  induction count generalizing row with
  | zero =>
      apply System.Ends.panic
      apply space
      apply Finset.eq_empty_of_forall_notMem
      intro x member
      have below := (mem_free.mp member).1
      have covered : sb.size ≤ row * BPB := by
        have rounded := Nat.div_add_mod (sb.size + BPB - 1) BPB
        have rest := Nat.mod_lt (sb.size + BPB - 1) positive
        rw [total, Nat.add_zero, Nat.mul_comm] at rounded
        omega
      exact before x (by omega) member
  | succ count ih =>
      have inside : row * BPB < sb.size := by
        have row_lt : row < (sb.size + BPB - 1) / BPB := by omega
        have times := (Nat.lt_div_iff_mul_lt positive).mp row_lt
        omega
      have free_row : s.holder (sb.BBLOCK (row * BPB)) = none :=
        quiet _ (Or.inl (ordered.bitmap _ inside))
      apply bread_ends free_row
      apply System.Ends.step rfl
      split <;> rename_i search
      · rename_i bi
        rcases firstFree_some search with ⟨below, unset⟩
        have place : bi < BPB := by omega
        have unused : row * BPB + bi ∈ free sb s.view := by
          rw [mem_free, used_row place]
          exact ⟨by omega, unset⟩
        have state := holds _ unused
        rw [balloced, mark, BBLOCK_row place, (row_place place).2] at state
        -- Mark block in use.
        apply System.Ends.step rfl
        apply System.Ends.bind
        apply logWrite_ends
        · intro short
          exact full (by simp only at short; omega)
        · apply System.Ends.step rfl
          apply System.Ends.bind
          apply bzero_ends
          · simp only [released free_row]
            exact quiet _ (Or.inr unused)
          · intro short
            apply full
            have grows := s.log.lh.absorb_n_le (b := sb.BBLOCK (row * BPB))
            simp only [Logging.Ops.absorb, Logging.Log.limit] at short ⊢
            omega
          · apply System.Ends.ret
            simp only [released free_row]
            exact state
      · apply System.Ends.step rfl
        simp only [released free_row]
        have next : row * BPB + BPB = (row + 1) * BPB := by rw [Nat.add_mul, Nat.one_mul]
        rw [next]
        apply ih (row + 1) (by omega)
        intro x below member
        by_cases earlier : x < row * BPB
        · exact before x earlier member
        · have bounds := mem_free.mp member
          have place : x - row * BPB < BPB := by omega
          have split : x = row * BPB + (x - row * BPB) := by omega
          have set : bit (s.view (sb.BBLOCK (row * BPB))) (x - row * BPB) = true :=
            firstFree_none search (by omega)
          rw [split, used_row place, set] at bounds
          cases bounds.2

/-- Allocate a zeroed disk block. -/
theorem balloc_ends {post : Nat → Blocks Pid → Prop} (ordered : sb.Ordered)
    (quiet : Quiet sb s)
    (space : free sb s.view = ∅ → mayPanic outOfBlocks)
    (full : s.log.limit ≤ s.log.lh.n + 1 → mayPanic logFull)
    (holds : ∀ b, b ∈ free sb s.view → post b
      { s with
        view := balloced sb s.view b
        toOps := s.toOps.absorbs p [sb.BBLOCK b, b] }) :
    (blocksSystem sb task).Ends p mayPanic post (balloc sb) s := by
  have start : 0 = 0 * BPB := (Nat.zero_mul BPB).symm
  rw [balloc, start]
  apply ballocLoop_ends ordered quiet space full holds
  · rw [Nat.zero_add]
  · intro x below
    omega

section Owned

variable {d : Nat → Dinode} {count : Nat → Nat} {region : Nat → Set Nat} {pending : Set Nat}
  {view : Nat → Block} {x : Nat}

theorem balloced_self : balloced sb view b b = zeroBlock :=
  Function.update_self ..

theorem balloced_other (other : x ≠ b) (bitmap : x ≠ sb.BBLOCK b) :
    balloced sb view b x = view x := by
  rw [balloced, Function.update_of_ne other, mark, Function.update_of_ne bitmap]

/-- A new block is not one of the bitmap. -/
theorem Owned.bitmap_ne (owned : Owned sb d count region pending view) (ordered : sb.Ordered)
    (unused : b ∈ free sb view) (below : x < sb.size) : sb.BBLOCK x ≠ b := by
  have bounds := mem_free.mp unused
  have low := (owned.fresh bounds.1 bounds.2).1
  have bitmap := ordered.bitmap x below
  omega

theorem Owned.balloced_used (owned : Owned sb d count region pending view)
    (ordered : sb.Ordered) (unused : b ∈ free sb view) (below : x < sb.size) :
    used sb (balloced sb view b) x = (decide (x = b) || used sb view x) := by
  rw [← used_mark]
  exact used_congr (Function.update_of_ne (owned.bitmap_ne ordered unused below) ..)

/-- A new block is in no region. -/
theorem Owned.balloced_same (owned : Owned sb d count region pending view)
    (ordered : sb.Ordered) (unused : b ∈ free sb view) (member : x ∈ region inum) :
    balloced sb view b x = view x := by
  have bounds := mem_free.mp unused
  have bitmap := ordered.bitmap b bounds.1
  have low := (owned.inside inum x member).1
  apply balloced_other
  · rintro rfl
    exact (owned.fresh bounds.1 bounds.2).2.2 inum member
  · omega

theorem Owned.balloced (owned : Owned sb d count region pending view) (ordered : sb.Ordered)
    (unused : b ∈ free sb view) :
    Owned sb d count region (insert b pending) (balloced sb view b) := by
  have bounds := mem_free.mp unused
  apply owned.allocate bounds.1 bounds.2
  · intro x below
    exact owned.balloced_used ordered unused below
  · intro i x member
    exact owned.balloced_same ordered unused member

theorem Owned.free_balloced (owned : Owned sb d count region pending view)
    (ordered : sb.Ordered) (unused : b ∈ free sb view) :
    free sb (Fs.balloced sb view b) = (free sb view).erase b :=
  free_erase fun _ below => owned.balloced_used ordered unused below

/-- Everything before the bitmap stays. -/
theorem Owned.balloced_below (owned : Owned sb d count region pending view)
    (ordered : sb.Ordered) (unused : b ∈ free sb view) (below : x < sb.bmapstart) :
    Fs.balloced sb view b x = view x := by
  have bounds := mem_free.mp unused
  have low := (owned.fresh bounds.1 bounds.2).1
  have bitmap := ordered.bitmap b bounds.1
  have start : sb.bmapstart ≤ sb.BBLOCK b := Nat.le_add_left ..
  apply balloced_other <;> omega

end Owned

/-- Free a disk block. -/
theorem bfree_ends {post : Unit → Blocks Pid → Prop} (free : s.holder (sb.BBLOCK b) = none)
    (taken : used sb s.view b = true)
    (full : s.log.limit ≤ s.log.lh.n → mayPanic logFull)
    (holds : post ()
      { s with
        view := unmark sb s.view b
        toOps := s.toOps.absorb p (sb.BBLOCK b) }) :
    (blocksSystem sb task).Ends p mayPanic post (bfree sb b) s := by
  apply bread_ends free
  apply System.Ends.step rfl
  dsimp only
  split <;> rename_i marked
  · rw [used] at taken
    simp [taken] at marked
  · apply System.Ends.step rfl
    apply System.Ends.bind
    apply logWrite_ends
    · exact full
    · apply System.Ends.perform rfl
      simp only [released free]
      exact holds

/-! ## Dinodes -/

/-- The dinode of an inode is replaced on disk. -/
def setDinode (sb : Superblock) (view : Nat → Block) (inum : Nat) (d : Dinode) : Nat → Block :=
  Function.update view (sb.IBLOCK inum) (Dinode.write (view (sb.IBLOCK inum)) (inum % IPB) d)

theorem dinode_setDinode {view : Nat → Block} {d : Dinode} {other : Nat} :
    dinode sb (setDinode sb view inum d) other =
      if other = inum then d else dinode sb view other := by
  have inside : inum % IPB < IPB := Nat.mod_lt _ (by simp [IPB])
  unfold dinode setDinode
  by_cases row : sb.IBLOCK other = sb.IBLOCK inum
  · rw [row, Function.update_self]
    split <;> rename_i same
    · rw [same, Dinode.read_write_same inside]
    · apply Dinode.read_write_other
      intro place
      apply same
      have rows : other / IPB = inum / IPB := by
        simp only [Superblock.IBLOCK] at row
        omega
      rw [← Nat.div_add_mod other IPB, rows, place, Nat.div_add_mod]
  · have different : other ≠ inum := by
      rintro rfl
      exact row rfl
    rw [Function.update_of_ne row, if_neg different]

theorem setDinode_other {view : Nat → Block} {d : Dinode} (other : b ≠ sb.IBLOCK inum) :
    setDinode sb view inum d b = view b :=
  Function.update_of_ne other ..

/-- Copy a modified in-memory inode to disk. -/
theorem iupdate_ends {post : Unit → Blocks Pid → Prop}
    (free : s.holder (sb.IBLOCK (s.inum ip)) = none)
    (full : s.log.limit ≤ s.log.lh.n → mayPanic logFull)
    (holds : post ()
      { s with
        view := setDinode sb s.view (s.inum ip) (s.inode ip)
        toOps := s.toOps.absorb p (sb.IBLOCK (s.inum ip)) }) :
    (blocksSystem sb task).Ends p mayPanic post (iupdate sb ip) s := by
  apply System.Ends.step rfl
  apply bread_ends free
  apply System.Ends.step rfl
  apply System.Ends.step rfl
  apply System.Ends.step rfl
  apply System.Ends.bind
  apply logWrite_ends
  · exact full
  · apply System.Ends.perform rfl
    simp only [released free]
    exact holds

/-- The inode is read from disk. -/
theorem iload_ends {post : Unit → Blocks Pid → Prop}
    (free : s.holder (sb.IBLOCK (s.inum ip)) = none)
    (holds : post ()
      { s with
        inode := Function.update s.inode ip (dinode sb s.view (s.inum ip)) }) :
    (blocksSystem sb task).Ends p mayPanic post (iload sb ip) s := by
  apply System.Ends.step rfl
  apply bread_ends free
  apply System.Ends.step rfl
  apply System.Ends.step rfl
  apply System.Ends.perform rfl
  simp only [released free]
  exact holds

/-- An iteration of `ialloc`. -/
theorem itake_ends {post : Bool → Blocks Pid → Prop} {type : UInt16}
    (free : s.holder (sb.IBLOCK inum) = none)
    (full : s.log.limit ≤ s.log.lh.n → mayPanic logFull)
    (taken : (dinode sb s.view inum).type = 0 → post true
      { s with
        view := setDinode sb s.view inum (Dinode.fresh type)
        toOps := s.toOps.absorb p (sb.IBLOCK inum) })
    (skipped : (dinode sb s.view inum).type ≠ 0 → post false s) :
    (blocksSystem sb task).Ends p mayPanic post (itake sb inum type) s := by
  apply bread_ends free
  apply System.Ends.step rfl
  split <;> rename_i type
  · apply System.Ends.step rfl
    apply System.Ends.bind
    apply logWrite_ends
    · exact full
    · apply System.Ends.step rfl
      apply System.Ends.ret
      simp only [released free]
      exact taken type
  · apply System.Ends.step rfl
    apply System.Ends.ret
    simp only [released free]
    exact skipped type

end PiKernel.Fs
