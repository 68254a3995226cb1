import PiKernel.Fs.Create

/-!
# Freeing an inode

The last reference to an inode without links is dropped: `iput` gives all its blocks back, one
after the other, and marks its dinode free.  Every `bfree` tests the space in the log.
-/

namespace PiKernel.Fs

open PiKernel.Bytes
open PiKernel.Conc

variable {Pid : Type} [DecidableEq Pid] {sb : Superblock}
  {task : Tables Pid → Pid → Prog (Act Pid) Unit → Prop} {p : Pid} {mayPanic : String → Prop}
  {s t : Blocks Pid} {ip : Fin NINODE} {view : Nat → Block} {d : Dinode} {b i m n x : Nat}
  {bs : List Nat}

/-! ## The blocks of an inode -/

/-- The blocks that the first references of an inode name, in the order of `itrunc`. -/
def Dinode.named (d : Dinode) (view : Nat → Block) (n : Nat) : List Nat :=
  ((List.range n).map (d.ref view)).filter (· ≠ 0)

/-- All blocks that an inode names; the last one is the indirect block. -/
def Dinode.all (d : Dinode) (view : Nat → Block) : List Nat :=
  d.named view (MAXFILE + 1)

namespace Dinode

theorem mem_named : b ∈ d.named view n ↔ b ≠ 0 ∧ ∃ k, k < n ∧ d.ref view k = b := by
  simp only [named, List.mem_filter, List.mem_map, List.mem_range, decide_eq_true_eq]
  exact and_comm

theorem named_skip (missing : d.ref view n = 0) : d.named view (n + 1) = d.named view n := by
  simp [named, List.range_succ, List.filter_append, missing]

theorem named_next (used : d.ref view n ≠ 0) :
    d.named view (n + 1) = d.named view n ++ [d.ref view n] := by
  simp [named, List.range_succ, List.filter_append, used]

theorem named_stop (none : ∀ k, m ≤ k → d.ref view k = 0) (below : m ≤ n) :
    d.named view n = d.named view m := by
  induction n, below using Nat.le_induction with
  | base => rfl
  | succ n above ih => rw [named_skip (none n above), ih]

theorem named_subset (below : m ≤ n) : d.named view m ⊆ d.named view n := by
  intro b member
  rcases mem_named.mp member with ⟨used, k, inside, same⟩
  exact mem_named.mpr ⟨used, k, lt_of_lt_of_le inside below, same⟩

/-- The first addresses are 0. -/
def clear (d : Dinode) (n : Nat) : Dinode :=
  { d with addrs := fun j => if j.val < n then 0 else d.addrs j }

theorem clear_zero : d.clear 0 = d := by
  simp [clear]

theorem addr_clear (after : n ≤ i) : (d.clear n).addr i = d.addr i := by
  simp only [addr, clear]
  split
  · rw [if_neg (not_lt.mpr after)]
  · rfl

theorem clear_succ : (d.clear n).setAddr n 0 = d.clear (n + 1) := by
  ext1
  · rfl
  · rename_i j
    simp only [setAddr, clear]
    by_cases here : j.val = n
    · rw [if_pos here, if_pos (by omega)]
      rfl
    · rw [if_neg here]
      congr 1
      exact propext (by omega)

theorem clear_skip (missing : d.addr n = 0) : d.clear (n + 1) = d.clear n := by
  ext1
  · rfl
  · rename_i j
    simp only [clear]
    by_cases here : j.val = n
    · subst here
      have zero : d.addrs j = 0 := by
        rw [addr, dif_pos j.isLt] at missing
        exact UInt32.toNat_inj.mp missing
      rw [if_pos (by omega), if_neg (by omega), zero]
    · congr 1
      exact propext (by omega)

end Dinode

/-- Where every reference is another one, no block is named twice. -/
theorem Laid.named_nodup {region : Set Nat} {count : Nat} (laid : Laid d view region count) :
    (d.named view n).Nodup := by
  induction n with
  | zero => exact List.nodup_nil
  | succ n ih =>
      by_cases missing : d.ref view n = 0
      · rwa [Dinode.named_skip missing]
      · rw [Dinode.named_next missing, List.nodup_append]
        refine ⟨ih, List.nodup_singleton _, ?_⟩
        rintro b member c last rfl
        rw [List.mem_singleton] at last
        rcases Dinode.mem_named.mp member with ⟨used, k, inside, same⟩
        have equal := laid.maps.once k n (same.trans last) (same ▸ used)
        omega

theorem Laid.mem_all {region : Set Nat} {count : Nat} (laid : Laid d view region count) :
    b ∈ d.all view ↔ b ∈ region := by
  rw [Dinode.all, Dinode.mem_named, laid.maps.region]
  refine and_congr_right fun used => ⟨fun ⟨k, _, same⟩ => ⟨k, same⟩, ?_⟩
  rintro ⟨k, same⟩
  refine ⟨k, ?_, same⟩
  by_contra outside
  rw [Dinode.ref_eq_zero (by omega)] at same
  exact used same.symm

/-! ## The bitmap -/

/-- Mark some blocks free, one after the other. -/
def unmarks (sb : Superblock) (view : Nat → Block) (bs : List Nat) : Nat → Block :=
  bs.foldl (unmark sb) view

theorem unmarks_concat : unmarks sb view (bs ++ [b]) = unmark sb (unmarks sb view bs) b := by
  rw [unmarks, List.foldl_append]
  rfl

theorem used_unmarks : used sb (unmarks sb view bs) x = (!decide (x ∈ bs) && used sb view x) := by
  induction bs using List.reverseRecOn with
  | nil => simp [unmarks]
  | append_singleton bs b ih =>
      rw [unmarks_concat, used_unmark, ih]
      simp only [List.mem_append, List.mem_singleton, Bool.decide_or, Bool.not_or]
      rw [← Bool.and_assoc, Bool.and_comm (!decide (x = b))]

theorem unmarks_other (other : ∀ b, b ∈ bs → x ≠ sb.BBLOCK b) : unmarks sb view bs x = view x := by
  induction bs using List.reverseRecOn with
  | nil => rfl
  | append_singleton bs b ih =>
      have last := other b (List.mem_append_right _ (List.mem_singleton_self b))
      rw [unmarks_concat, unmark, Function.update_of_ne last]
      exact ih fun c member => other c (List.mem_append_left _ member)

/-! ## `itrunc` -/

/-- The blocks that the first references name have been freed, and some addresses dropped. -/
def freed (sb : Superblock) (s : Blocks Pid) (p : Pid) (ip : Fin NINODE) (n m : Nat) :
    Blocks Pid :=
  { s with
    view := unmarks sb s.view ((s.inode ip).named s.view n)
    inode := Function.update s.inode ip ((s.inode ip).clear m)
    toOps := s.toOps.absorbs p (((s.inode ip).named s.view n).map sb.BBLOCK) }

theorem addr_freed (after : m ≤ i) :
    ((freed sb s p ip n m).inode ip).addr i = (s.inode ip).addr i := by
  simp only [freed, Function.update_self, Dinode.addr_clear after]

/-- The bitmap blocks of the blocks that an inode names. -/
def bitmaps (sb : Superblock) (d : Dinode) (view : Nat → Block) : Finset Nat :=
  ((d.all view).map sb.BBLOCK).toFinset

/-- The log has too little room for the bitmap blocks of an inode, and for its own. -/
def NoSpace (sb : Superblock) (s : Blocks Pid) (ip : Fin NINODE) : Prop :=
  s.log.limit ≤ s.log.lh.n + (bitmaps sb (s.inode ip) s.view).card + 1

/-- The log grows by the bitmap blocks only. -/
theorem freed_logged (inside : n ≤ MAXFILE + 1) :
    (freed sb s p ip n m).log.lh.n ≤
        s.log.lh.n + (bitmaps sb (s.inode ip) s.view).card ∧
      (freed sb s p ip n m).log.limit = s.log.limit := by
  have grows : (s.toOps.absorbs p (((s.inode ip).named s.view n).map sb.BBLOCK)).log.lh.n ≤
      s.log.lh.n + (((s.inode ip).named s.view n).map sb.BBLOCK).toFinset.card :=
    Logging.Ops.absorbs_n_le
  have few : (((s.inode ip).named s.view n).map sb.BBLOCK).toFinset.card ≤
      (bitmaps sb (s.inode ip) s.view).card := by
    apply Finset.card_le_card
    intro b member
    rw [List.mem_toFinset] at member
    exact List.mem_toFinset.mpr (List.map_subset _ (Dinode.named_subset inside) member)
  exact ⟨grows.trans (Nat.add_le_add_left few _), Logging.Ops.absorbs_limit⟩

/-- There is room for the bitmap block of the next block. -/
theorem freed_room (inside : n ≤ MAXFILE + 1) (full : NoSpace sb s ip → mayPanic logFull)
    (short : (freed sb s p ip n m).log.limit ≤ (freed sb s p ip n m).log.lh.n) :
    mayPanic logFull := by
  apply full
  have logged : (freed sb s p ip n m).log.lh.n ≤
      s.log.lh.n + (bitmaps sb (s.inode ip) s.view).card ∧ _ := freed_logged inside
  rcases logged with ⟨few, limit⟩
  rw [limit] at short
  rw [NoSpace]
  omega

/-- An inode with its blocks, all of which are marked; no buffer is in use. -/
structure Whole (sb : Superblock) (s : Blocks Pid) (ip : Fin NINODE) (region : Set Nat)
    (count : Nat) : Prop where
  ordered : sb.Ordered
  laid : Laid (s.inode ip) s.view region count
  inside : ∀ b, b ∈ region → sb.datastart ≤ b ∧ b < sb.size
  marked : ∀ b, b ∈ region → used sb s.view b = true
  quiet : ∀ b, s.holder b = none

namespace Whole

variable {region : Set Nat} {count : Nat}

omit [DecidableEq Pid] in
/-- A bitmap block is no block of an inode. -/
theorem bitmap_ne (whole : Whole sb s ip region count) (member : b ∈ region)
    (member' : x ∈ region) : sb.BBLOCK b ≠ x := by
  have low := whole.ordered.bitmap b (whole.inside b member).2
  have high := (whole.inside x member').1
  omega

/-- The next block is freed. -/
theorem bfree_ends {post : Unit → Blocks Pid → Prop} (whole : Whole sb s ip region count)
    (inside : n ≤ MAXFILE) (named : (s.inode ip).ref s.view n ≠ 0)
    (full : NoSpace sb s ip → mayPanic logFull) (holder : Nat → Option Pid)
    (free : holder (sb.BBLOCK ((s.inode ip).ref s.view n)) = none)
    (holds : post () { freed sb s p ip (n + 1) m with holder := holder }) :
    (blocksSystem sb task).Ends p mayPanic post (bfree sb ((s.inode ip).ref s.view n))
      { freed sb s p ip n m with holder := holder } := by
  have member := whole.laid.maps.mem named
  have new : (s.inode ip).ref s.view n ∉ (s.inode ip).named s.view n := by
    intro again
    rcases Dinode.mem_named.mp again with ⟨_, k, below, same⟩
    have equal := whole.laid.maps.once k n same (same ▸ named)
    omega
  apply Fs.bfree_ends free
  · change used sb (unmarks sb s.view ((s.inode ip).named s.view n)) _ = true
    rw [used_unmarks, whole.marked _ member]
    simp [new]
  · exact freed_room (m := m) (by omega) full
  · have state : { freed sb s p ip (n + 1) m with holder := holder } =
        { freed sb s p ip n m with
          holder := holder
          view := unmark sb (freed sb s p ip n m).view ((s.inode ip).ref s.view n)
          toOps := (freed sb s p ip n m).toOps.absorb p
            (sb.BBLOCK ((s.inode ip).ref s.view n)) } := by
      simp only [freed, Dinode.named_next named, unmarks_concat, List.map_append,
        List.map_cons, List.map_nil, Logging.Ops.absorbs_concat]
    rw [state] at holds
    exact holds

/-- The address of a block that has been freed is dropped. -/
theorem assignAddr_ends {post : Unit → Blocks Pid → Prop}
    (holds : post () (freed sb s p ip n (m + 1))) :
    (blocksSystem sb task).Ends p mayPanic post (assignAddr ip m 0) (freed sb s p ip n m) := by
  apply System.Ends.step rfl
  refine System.Ends.perform rfl ?_
  simp only [freed, Function.update_self, Function.update_idem, Dinode.clear_succ]
  exact holds

/-- The first loop frees the direct blocks. -/
theorem itruncDirect_ends {post : Unit → Blocks Pid → Prop} (whole : Whole sb s ip region count)
    (full : NoSpace sb s ip → mayPanic logFull)
    (holds : post () (freed sb s p ip NDIRECT NDIRECT)) :
    (blocksSystem sb task).Ends p mayPanic post (itruncDirect sb ip) s := by
  have start : s = freed sb s p ip 0 0 := by
    simp [freed, Dinode.named, Dinode.clear_zero, unmarks]
  have loop : (blocksSystem sb task).Ends p mayPanic
      (fun _ after => after = freed sb s p ip NDIRECT NDIRECT) (itruncDirect sb ip) s := by
    refine System.Ends.forM_range (fun i after => after = freed sb s p ip i i) ?_ start
    rintro i _ below rfl
    have address : ((freed sb s p ip i i).inode ip).addr i = (s.inode ip).ref s.view i := by
      rw [addr_freed le_rfl, Dinode.ref_direct below]
    apply System.Ends.step rfl
    rw [address]
    by_cases named : (s.inode ip).ref s.view i = 0
    · rw [if_neg (not_not.mpr named)]
      apply System.Ends.ret
      have missing : (s.inode ip).addr i = 0 := by rwa [Dinode.ref_direct below] at named
      rw [freed, freed, Dinode.named_skip named, Dinode.clear_skip missing]
    · rw [if_pos named]
      apply System.Ends.bind
      apply whole.bfree_ends (by simp only [MAXFILE]; omega) named full s.holder (whole.quiet _)
      change (blocksSystem sb task).Ends p mayPanic _ (assignAddr ip i 0)
        (freed sb s p ip (i + 1) i)
      apply assignAddr_ends
      rfl
  exact loop.mono (fun _ => id) fun _ _ same => same ▸ holds

/-- The entries of the indirect block are freed, which is in hand. -/
theorem itruncEntries_ends {post : Unit → Blocks Pid → Prop} (whole : Whole sb s ip region count)
    (indirect : (s.inode ip).addr NDIRECT ≠ 0) (full : NoSpace sb s ip → mayPanic logFull)
    (holder : Nat → Option Pid)
    (others : ∀ x, x ≠ (s.inode ip).addr NDIRECT → holder x = none)
    (holds : post () { freed sb s p ip MAXFILE NDIRECT with holder := holder }) :
    (blocksSystem sb task).Ends p mayPanic post
      (itruncEntries sb (s.view ((s.inode ip).addr NDIRECT)))
      { freed sb s p ip NDIRECT NDIRECT with holder := holder } := by
  have loop : (blocksSystem sb task).Ends p mayPanic
      (fun _ after =>
        after = { freed sb s p ip (NDIRECT + NINDIRECT) NDIRECT with holder := holder })
      (itruncEntries sb (s.view ((s.inode ip).addr NDIRECT)))
      { freed sb s p ip NDIRECT NDIRECT with holder := holder } := by
    refine System.Ends.forM_range
      (fun j after => after = { freed sb s p ip (NDIRECT + j) NDIRECT with holder := holder }) ?_
      rfl
    rintro j _ below rfl
    have entry : entry (s.view ((s.inode ip).addr NDIRECT)) j =
        (s.inode ip).ref s.view (NDIRECT + j) := by
      rw [Dinode.ref_entry (by omega) (by simp only [MAXFILE]; omega) indirect,
        Nat.add_sub_cancel_left]
    rw [entry]
    by_cases named : (s.inode ip).ref s.view (NDIRECT + j) = 0
    · rw [if_neg (not_not.mpr named)]
      apply System.Ends.ret
      have skip : freed sb s p ip (NDIRECT + (j + 1)) NDIRECT =
          freed sb s p ip (NDIRECT + j) NDIRECT := by
        rw [freed, freed, ← Nat.add_assoc, Dinode.named_skip named]
      rw [skip]
    · rw [if_pos named]
      apply whole.bfree_ends (by simp only [MAXFILE]; omega) named full holder
      · apply others
        exact whole.bitmap_ne (whole.laid.maps.mem named) (whole.laid.indirect indirect)
      · rfl
  exact loop.mono (fun _ => id) fun _ _ same => same ▸ holds

/-- The second part frees the blocks behind the direct ones. -/
theorem itruncIndirect_ends {post : Unit → Blocks Pid → Prop} (whole : Whole sb s ip region count)
    (full : NoSpace sb s ip → mayPanic logFull)
    (holds : post () (freed sb s p ip (MAXFILE + 1) (NDIRECT + 1))) :
    (blocksSystem sb task).Ends p mayPanic post (itruncIndirect sb ip)
      (freed sb s p ip NDIRECT NDIRECT) := by
  have address : ((freed sb s p ip NDIRECT NDIRECT).inode ip).addr NDIRECT =
      (s.inode ip).addr NDIRECT := addr_freed le_rfl
  apply System.Ends.step rfl
  rw [address]
  by_cases indirect : (s.inode ip).addr NDIRECT = 0
  · rw [if_neg (not_not.mpr indirect)]
    apply System.Ends.ret
    have none : ∀ k, NDIRECT ≤ k → (s.inode ip).ref s.view k = 0 := by
      intro k above
      simp [Dinode.ref, not_lt.mpr above, indirect]
    have named : (s.inode ip).named s.view (MAXFILE + 1) = (s.inode ip).named s.view NDIRECT :=
      Dinode.named_stop none (by decide)
    rw [freed, named, Dinode.clear_skip indirect] at holds
    exact holds
  · rw [if_pos indirect]
    have member := whole.laid.indirect indirect
    have data : (freed sb s p ip NDIRECT NDIRECT).view ((s.inode ip).addr NDIRECT) =
        s.view ((s.inode ip).addr NDIRECT) := by
      apply unmarks_other
      intro b named
      have owned := whole.laid.mem_all.mp (Dinode.named_subset (by decide) named)
      exact (whole.bitmap_ne owned member).symm
    have last : (s.inode ip).ref s.view MAXFILE = (s.inode ip).addr NDIRECT := Dinode.ref_indirect
    have quiet : (freed sb s p ip NDIRECT NDIRECT).holder ((s.inode ip).addr NDIRECT) = none :=
      whole.quiet _
    apply bread_ends quiet
    apply System.Ends.step rfl
    rw [data]
    apply System.Ends.bind
    apply whole.itruncEntries_ends indirect full
    · intro x other
      rw [Function.update_of_ne other]
      exact whole.quiet x
    · apply System.Ends.step rfl
      simp only [released quiet]
      apply System.Ends.bind
      rw [← last]
      apply whole.bfree_ends le_rfl (by rw [last]; exact indirect) full s.holder (whole.quiet _)
      change (blocksSystem sb task).Ends p mayPanic _ (assignAddr ip NDIRECT 0)
        (freed sb s p ip (MAXFILE + 1) NDIRECT)
      exact assignAddr_ends holds

end Whole

/-- The inode is replaced, in its copy and on disk. -/
def updated (sb : Superblock) (s : Blocks Pid) (p : Pid) (ip : Fin NINODE) (e : Dinode) :
    Blocks Pid :=
  { s with
    view := setDinode sb s.view (s.inum ip) e
    inode := Function.update s.inode ip e
    toOps := s.toOps.absorb p (sb.IBLOCK (s.inum ip)) }

theorem updated_ends {post : Unit → Blocks Pid → Prop} {e : Dinode}
    (free : s.holder (sb.IBLOCK (s.inum ip)) = none)
    (full : s.log.limit ≤ s.log.lh.n → mayPanic logFull)
    (holds : post () (updated sb s p ip e)) :
    (blocksSystem sb task).Ends p mayPanic post
      (block (.setInode ip e) >>= fun _ => iupdate sb ip) s := by
  apply System.Ends.step rfl
  apply iupdate_ends
  · exact free
  · exact full
  · simp only [Function.update_self]
    exact holds

/-- An inode without blocks and contents. -/
def Dinode.emptied (d : Dinode) : Dinode :=
  { d.clear (NDIRECT + 1) with size := 0 }

/-- An inode that has been freed. -/
def Dinode.vacant (d : Dinode) : Dinode :=
  { d.emptied with type := 0 }

theorem Dinode.addrs_emptied : d.emptied.addrs = fun _ => 0 := by
  funext j
  exact if_pos j.isLt

/-- What is left when an inode has been freed with its blocks. -/
def ifreed (sb : Superblock) (s : Blocks Pid) (p : Pid) (ip : Fin NINODE) : Blocks Pid :=
  updated sb
    (updated sb (freed sb s p ip (MAXFILE + 1) (NDIRECT + 1)) p ip (s.inode ip).emptied) p ip
    (s.inode ip).vacant

namespace Whole

variable {region : Set Nat} {count : Nat} (whole : Whole sb s ip region count)

include whole

/-- Truncate inode (discard contents). -/
theorem itrunc_ends {post : Unit → Blocks Pid → Prop}
    (full : NoSpace sb s ip → mayPanic logFull)
    (holds : post ()
      (updated sb (freed sb s p ip (MAXFILE + 1) (NDIRECT + 1)) p ip (s.inode ip).emptied)) :
    (blocksSystem sb task).Ends p mayPanic post (itrunc sb ip) s := by
  apply System.Ends.bind
  apply whole.itruncDirect_ends full
  apply System.Ends.bind
  apply whole.itruncIndirect_ends full
  apply System.Ends.step rfl
  apply updated_ends
  · exact whole.quiet _
  · exact freed_room le_rfl full
  · simp only [freed, Function.update_self]
    exact holds

/-- The inode is freed with its blocks. -/
theorem ifree_ends {post : Unit → Blocks Pid → Prop}
    (full : NoSpace sb s ip → mayPanic logFull)
    (holds : post () (ifreed sb s p ip)) :
    (blocksSystem sb task).Ends p mayPanic post (ifree sb ip) s := by
  apply System.Ends.bind
  apply whole.itrunc_ends full
  apply System.Ends.step rfl
  apply updated_ends
  · exact whole.quiet _
  · intro short
    apply full
    have logged : (freed sb s p ip (MAXFILE + 1) (NDIRECT + 1)).log.lh.n ≤
        s.log.lh.n + (bitmaps sb (s.inode ip) s.view).card ∧ _ := freed_logged le_rfl
    rcases logged with ⟨few, limit⟩
    have grows := (freed sb s p ip (MAXFILE + 1) (NDIRECT + 1)).log.lh.absorb_n_le
      (b := sb.IBLOCK (s.inum ip))
    change (freed sb s p ip (MAXFILE + 1) (NDIRECT + 1)).log.limit ≤
      ((freed sb s p ip (MAXFILE + 1) (NDIRECT + 1)).log.lh.absorb (sb.IBLOCK (s.inum ip))).n
        at short
    rw [limit] at short
    rw [NoSpace]
    omega
  · simp only [ifreed, updated, Function.update_self] at holds ⊢
    exact holds

end Whole

/-! ## The volume without the inode -/

/-- Blocks without an owner are marked free. -/
theorem Owned.discharge {d : Nat → Dinode} {count : Nat → Nat} {region : Nat → Set Nat}
    {pending : Set Nat} {view' : Nat → Block} (owned : Owned sb d count region pending view)
    (same : ∀ i x, x ∈ region i → view' x = view x)
    (marks : ∀ x, x < sb.size → (used sb view' x = true ↔ used sb view x = true ∧ x ∉ pending)) :
    Owned sb d count region ∅ view' := by
  constructor
  · intro i live
    exact (owned.laid i live).congr (same i)
  · exact owned.none
  · exact owned.once
  · exact fun _ _ _ loose => loose
  · exact owned.inside
  · exact fun _ loose => loose.elim
  · intro x below
    rw [marks x below, owned.marked x below]
    constructor
    · rintro ⟨low | loose | owner, settled⟩
      · exact Or.inl low
      · exact absurd loose settled
      · exact Or.inr (Or.inr owner)
    · rintro (low | loose | ⟨i, member⟩)
      · exact ⟨Or.inl low, fun loose => absurd low (not_lt.mpr (owned.loose x loose).1)⟩
      · exact loose.elim
      · exact ⟨Or.inr (Or.inr ⟨i, member⟩), owned.apart i x member⟩

/-- The volume after an inode has been freed. -/
def vacate (sb : Superblock) (view : Nat → Block) (inum : Nat) : Nat → Block :=
  setDinode sb
    (setDinode sb (unmarks sb view ((dinode sb view inum).all view)) inum
      (dinode sb view inum).emptied)
    inum (dinode sb view inum).vacant

theorem ifreed_eq (copy : s.inode ip = dinode sb s.view (s.inum ip)) :
    ifreed sb s p ip =
      { s with
        toOps := s.toOps.absorbs p
          (((s.inode ip).all s.view).map sb.BBLOCK ++
            [sb.IBLOCK (s.inum ip), sb.IBLOCK (s.inum ip)])
        view := vacate sb s.view (s.inum ip)
        inode := Function.update s.inode ip (s.inode ip).vacant } := by
  rw [vacate, ← copy, Logging.Ops.absorbs_append]
  simp only [ifreed, updated, freed, Function.update_idem]
  rfl

/-- Exactly the blocks of an inode have been freed, and the inode with them. -/
structure Vacated (sb : Superblock) (view : Nat → Block) (inum : Nat) (view' : Nat → Block) :
    Prop where
  consistent : Consistent sb view'
  bitmap : ∀ b, used sb view' b = true ↔
    used sb view b = true ∧ ¬ ∃ k, (dinode sb view inum).ref view k = b ∧ b ≠ 0
  dinode : Fs.dinode sb view' inum =
    { Fs.dinode sb view inum with type := 0, size := 0, addrs := fun _ => 0 }
  others : ∀ m, m ≠ inum → m < sb.ninodes → Fs.dinode sb view' m = Fs.dinode sb view m
  contents : ∀ m, m ≠ inum → Allocated sb (Fs.dinode sb view) m →
    Fs.contents sb view' m = Fs.contents sb view m
  data : ∀ x, sb.datastart ≤ x → x < sb.size → view' x = view x

namespace Consistent

variable {inum : Nat} (consistent : Consistent sb view)

include consistent

theorem vacate_dinode {m : Nat} (inside : m < sb.ninodes) :
    Fs.dinode sb (vacate sb view inum) m =
      if m = inum then (Fs.dinode sb view inum).vacant else Fs.dinode sb view m := by
  have early := consistent.ordered.inodes m inside
  have bitmap : unmarks sb view ((Fs.dinode sb view inum).all view) (sb.IBLOCK m) =
      view (sb.IBLOCK m) := by
    apply unmarks_other
    intro b _
    have start : sb.bmapstart ≤ sb.BBLOCK b := Nat.le_add_left ..
    omega
  rw [vacate, dinode_setDinode, dinode_setDinode, dinode_congr bitmap]
  split <;> rfl

variable (live : Allocated sb (Fs.dinode sb view) inum)

include live

/-- Blocks that are neither of the inodes nor of the bitmap stay. -/
theorem vacate_data (low : sb.datastart ≤ x) (below : x < sb.size) :
    vacate sb view inum x = view x := by
  rcases consistent.owned with ⟨region, owned⟩
  have laid := owned.laid inum live
  have bitmap := consistent.ordered.bitmap x below
  have start : sb.bmapstart ≤ sb.BBLOCK x := Nat.le_add_left ..
  have early := consistent.ordered.inodes inum live.1
  have other : x ≠ sb.IBLOCK inum := by omega
  rw [vacate, setDinode_other other, setDinode_other other]
  apply unmarks_other
  intro b member
  have bounds := owned.inside inum b (laid.mem_all.mp member)
  have row := consistent.ordered.bitmap b bounds.2
  omega

theorem vacate_used : used sb (vacate sb view inum) b = true ↔
    used sb view b = true ∧ b ∉ (Fs.dinode sb view inum).all view := by
  have early := consistent.ordered.inodes inum live.1
  have start : sb.bmapstart ≤ sb.BBLOCK b := Nat.le_add_left ..
  have other : sb.BBLOCK b ≠ sb.IBLOCK inum := by omega
  have same : vacate sb view inum (sb.BBLOCK b) =
      unmarks sb view ((Fs.dinode sb view inum).all view) (sb.BBLOCK b) := by
    rw [vacate, setDinode_other other, setDinode_other other]
  rw [used_congr same, used_unmarks]
  simp [and_comm]

theorem vacated : Vacated sb view inum (vacate sb view inum) := by
  rcases consistent.owned with ⟨region, owned⟩
  have laid := owned.laid inum live
  have data : ∀ i x, x ∈ region i → vacate sb view inum x = view x := by
    intro i x member
    have bounds := owned.inside i x member
    exact consistent.vacate_data live bounds.1 bounds.2
  have here : Fs.dinode sb (vacate sb view inum) inum = (Fs.dinode sb view inum).vacant := by
    rw [consistent.vacate_dinode live.1, if_pos rfl]
  have others : ∀ m, m ≠ inum → m < sb.ninodes →
      Fs.dinode sb (vacate sb view inum) m = Fs.dinode sb view m := by
    intro m other inside
    rw [consistent.vacate_dinode inside, if_neg other]
  -- The blocks are taken from the inode before they are marked free.
  have assigned : Owned sb
      (Function.update (Fs.dinode sb view) inum (Fs.dinode sb view inum).vacant)
      (Function.update (counts sb view) inum 0) (Function.update region inum ∅) (region inum)
      view := by
    apply owned.assign
    · exact fun _ _ _ _ => rfl
    · exact fun _ _ => rfl
    · exact fun _ typed => absurd rfl typed
    · exact fun _ => rfl
    · exact fun x => by simp
    · exact fun x member => member.elim
  have discharged : Owned sb
      (Function.update (Fs.dinode sb view) inum (Fs.dinode sb view inum).vacant)
      (Function.update (counts sb view) inum 0) (Function.update region inum ∅) ∅
      (vacate sb view inum) := by
    apply assigned.discharge
    · intro i x member
      have bounds := assigned.inside i x member
      exact consistent.vacate_data live bounds.1 bounds.2
    · intro x _
      rw [consistent.vacate_used live, laid.mem_all]
  constructor
  · refine ⟨consistent.ordered, _, discharged.congr_inodes ?_ ?_⟩
    · intro i inside
      rw [consistent.vacate_dinode inside, Function.update_apply]
    · intro i inside
      rw [counts, consistent.vacate_dinode inside, Function.update_apply, counts]
      split
      · change blocks 0 = 0
        decide
      · rfl
  · intro b
    rw [consistent.vacate_used live, laid.mem_all, laid.maps.region]
    apply and_congr_right
    intro _
    rw [← exists_and_left]
    simp only [and_comm]
  · rw [here]
    exact congrArg (Dinode.mk _) Dinode.addrs_emptied
  · exact others
  · intro m other allocated
    rw [contents, others m other allocated.1, contents]
    apply List.map_congr_left
    intro k member
    have below := List.mem_range.mp member
    rw [Nat.zero_add]
    exact (owned.laid m allocated).byte_congr (data m) (div_lt_blocks below)
  · exact fun x => consistent.vacate_data live

end Consistent

/-! ## `iput` -/

/-- A reference to an inode of the volume; no process has locked it or uses a buffer. -/
structure Referenced (sb : Superblock) (s : Blocks Pid) (ip : Fin NINODE) : Prop where
  consistent : Consistent sb s.view
  referenced : 0 < s.ref ip
  unlocked : s.lock ip = none
  live : Allocated sb (dinode sb s.view) (s.inum ip)
  copy : s.valid ip = true → s.inode ip = dinode sb s.view (s.inum ip)
  quiet : ∀ b, s.holder b = none

/-- The last reference to an inode without links. -/
def Orphan (s : Blocks Pid) (ip : Fin NINODE) : Prop :=
  s.valid ip = true ∧ (s.inode ip).nlink = 0 ∧ s.ref ip = 1

/-- What `iput` leaves where it frees the inode. -/
def putFreed (sb : Superblock) (s : Blocks Pid) (p : Pid) (ip : Fin NINODE) : Blocks Pid :=
  { s with
    toTables :=
      { s.toTables with
        valid := Function.update s.valid ip false
        frees := Function.update s.frees p true }.unref p ip
    toOps := s.toOps.absorbs p
      (((s.inode ip).all s.view).map sb.BBLOCK ++
        [sb.IBLOCK (s.inum ip), sb.IBLOCK (s.inum ip)])
    view := vacate sb s.view (s.inum ip)
    inode := Function.update s.inode ip (s.inode ip).vacant }

theorem iput_frees_ends {post : Unit → Blocks Pid → Prop} (held : Referenced sb s ip)
    (orphan : Orphan s ip) (full : NoSpace sb s ip → mayPanic logFull)
    (holds : post () (putFreed sb s p ip)) :
    (blocksSystem sb task).Ends p mayPanic post ((iput ip).expand (body sb)) s := by
  rcases orphan with ⟨valid, unlinked, one⟩
  rcases held.consistent.owned with ⟨region, owned⟩
  have copy := held.copy valid
  have laid := owned.laid _ held.live
  rw [← copy] at laid
  have lock : (blocksSystem sb task).exec (.left (.acquiresleep ip)) p s =
      .done () { s with lock := Function.update s.lock ip (some p) } := by
    simp [blocksSystem, Blocks.exec, Tables.exec, held.unlocked, Outcome.map]
  apply System.Ends.step lock
  apply System.Ends.step rfl
  change (blocksSystem sb task).Ends p _ _
    (Prog.expand _ (if s.valid ip = true then _ else _)) _
  rw [if_pos valid]
  apply System.Ends.step rfl
  change (blocksSystem sb task).Ends p _ _
    (Prog.expand _ (if (s.inode ip).nlink = 0 then _ else _)) _
  rw [if_pos unlinked]
  have last : (blocksSystem sb task).exec (.left (.lastRef ip)) p
      { s with lock := Function.update s.lock ip (some p) } =
        .done (s.ref ip)
          { s with
            lock := Function.update s.lock ip (some p)
            frees := Function.update s.frees p true } := by
    simp [blocksSystem, Blocks.exec, Tables.exec, Outcome.map, one]
  apply System.Ends.step last
  change (blocksSystem sb task).Ends p _ _ (Prog.expand _ (if s.ref ip = 1 then _ else _)) _
  rw [if_pos one]
  have whole : Whole sb
      { s with
        lock := Function.update s.lock ip (some p)
        frees := Function.update s.frees p true } ip (region (s.inum ip))
      (counts sb s.view (s.inum ip)) :=
    ⟨held.consistent.ordered, laid, fun b => owned.inside _ b, fun b => owned.used_of_mem,
      held.quiet⟩
  apply bind_ends
  rw [expand_perform]
  apply whole.ifree_ends full
  apply System.Ends.step rfl
  have result : putFreed sb s p ip =
      { ifreed sb s p ip with
        toTables :=
          { s.toTables with
            valid := Function.update s.valid ip false
            frees := Function.update s.frees p true }.unref p ip } := by
    rw [ifreed_eq copy]
    rfl
  rw [result] at holds
  exact releasePut_ends
    (s := { ifreed sb s p ip with
      valid := Function.update s.valid ip false
      frees := Function.update s.frees p true }) held.unlocked holds

/--
The last reference to an inode without links frees exactly its blocks, each once, unless the
log has too little room.  Otherwise `iput` only drops a reference.
-/
theorem iput_vacates (held : Referenced sb s ip) :
    (Orphan s ip →
      ((s.inode ip).all s.view).Nodup ∧
        (blocksSystem sb task).Ends p (fun message => message = logFull ∧ NoSpace sb s ip)
          (fun _ final => final = putFreed sb s p ip ∧
            Vacated sb s.view (s.inum ip) final.view)
          ((iput ip).expand (body sb)) s) ∧
      (¬ Orphan s ip →
        (blocksSystem sb task).Completes p ((iput ip).expand (body sb)) s ()
          { s with toTables := s.toTables.unref p ip }) := by
  constructor
  · intro orphan
    rcases held.consistent.owned with ⟨region, owned⟩
    have laid := owned.laid _ held.live
    rw [← held.copy orphan.1] at laid
    refine ⟨laid.named_nodup, ?_⟩
    apply iput_frees_ends held orphan
    · exact fun short => ⟨rfl, short⟩
    · exact ⟨rfl, held.consistent.vacated held.live⟩
  · intro other
    have ends : (blocksSystem sb task).Ends p (fun _ => False)
        (fun _ final => final = { s with toTables := s.toTables.unref p ip })
        ((iput ip).expand (body sb)) s := by
      apply iput_ends held.unlocked
      · exact fun valid unlinked one => other ⟨valid, unlinked, one⟩
      · rfl
    rcases ends.completes with ⟨value, final, completes, rfl⟩
    exact completes

/-! ## A file without a name -/

/-- The file of one block has lost its name, and so many blocks have been logged. -/
def inPut (logged : Nat) : Blocks Unit :=
  { inWrite logged with
    lock := fun _ => none
    view := setDinode smallDisk oneFile 1 { oneBlock with nlink := 0 }
    inode := fun _ => { oneBlock with nlink := 0 } }

theorem referenced_inPut (logged : Nat) : Referenced smallDisk (inPut logged) firstEntry := by
  have file : dinode smallDisk oneFile 1 = oneBlock :=
    (dinode_oneFile (by decide)).trans (if_pos rfl)
  have nameless : dinode smallDisk (inPut logged).view 1 = { oneBlock with nlink := 0 } :=
    dinode_setDinode.trans (if_pos rfl)
  constructor
  · apply consistent_oneFile.fields (allocated_oneFile.mpr rfl)
    · exact (by decide : T_FILE ≠ 0)
    · exact (congrArg Dinode.addrs file).symm
    · rw [file]
  · exact Nat.one_pos
  · rfl
  · refine ⟨(by decide : 1 < 8), ?_⟩
    change (dinode smallDisk (inPut logged).view 1).type ≠ 0
    rw [nameless]
    exact (by decide : T_FILE ≠ 0)
  · exact fun _ => nameless.symm
  · exact fun _ => rfl

theorem orphan_inPut (logged : Nat) : Orphan (inPut logged) firstEntry :=
  ⟨rfl, rfl, rfl⟩

/-- The block of the file and the file are freed. -/
theorem iput_vacates_inPut : ∃ final,
    processOnly.Completes () ((iput firstEntry).expand (body smallDisk)) (inPut 0) () final ∧
      Vacated smallDisk (inPut 0).view 1 final.view := by
  have both : (_ → _ ∧ processOnly.Ends () _ _ _ _) ∧ _ :=
    iput_vacates (referenced_inPut 0)
  rcases both.1 (orphan_inPut 0) with ⟨_, ends⟩
  have room : ¬ NoSpace smallDisk (inPut 0) firstEntry := by
    rw [NoSpace]
    decide
  have returns : processOnly.Ends () (fun _ => False) _ _ _ :=
    ends.mono (fun _ short => room short.2) fun _ _ holds => holds
  rcases returns.completes with ⟨value, final, completes, _, vacated⟩
  exact ⟨final, completes, vacated⟩

/-- The log is full. -/
theorem not_iput_vacates :
    ¬ ∀ (s : Blocks Unit) (ip : Fin NINODE), Referenced smallDisk s ip → Orphan s ip →
      ∃ final, processOnly.Completes () ((iput ip).expand (body smallDisk)) s () final := by
  intro always
  rcases always (inPut 29) firstEntry (referenced_inPut 29) (orphan_inPut 29) with
    ⟨final, completes⟩
  have stops : (processOnly.run () ((iput firstEntry).expand (body smallDisk))
      (inPut 29)).isNone = true := by
    decide
  rw [completes.run_eq] at stops
  cases stops

end PiKernel.Fs
