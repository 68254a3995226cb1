import PiKernel.Fs.Resolve

/-!
# New inodes

`ialloc` takes a free inode of a consistent volume, and `create` gives it a name.  A file or
a device has no entries of its own, so the volume is consistent after every step.
-/

namespace PiKernel.Fs

open PiKernel.Bytes
open PiKernel.Conc

variable {Pid : Type} [DecidableEq Pid] {sb : Superblock}
  {task : Tables Pid → Pid → Prog (Act Pid) Unit → Prop} {p : Pid} {mayPanic : String → Prop}
  {s t : Blocks Pid} {dp ip i : Fin NINODE} {devsw : Devsw} {name path : List UInt8}
  {view : Nat → Block} {n m : Nat} {e : Dinode} {type major minor : UInt16}

/-! ## One dinode of a consistent volume -/

/-- A dinode is before the blocks that are in use by inodes. -/
theorem Consistent.setDinode_region (consistent : Consistent sb view) (inside : n < sb.ninodes)
    {region : Nat → Set Nat} {pending : Set Nat} {d : Nat → Dinode} {count : Nat → Nat}
    (owned : Owned sb d count region pending view) (x : Nat) (member : x ∈ region m) :
    setDinode sb view n e x = view x := by
  have early := consistent.ordered.inodes n inside
  have bounds := owned.inside m x member
  have bitmap := consistent.ordered.bitmap x bounds.2
  have start : sb.bmapstart ≤ sb.BBLOCK x := Nat.le_add_left ..
  apply setDinode_other
  omega

/-- The blocks of an inode that changes are the same, or there are none. -/
theorem Consistent.setDinode (consistent : Consistent sb view) (inside : n < sb.ninodes)
    (live : e.type ≠ 0)
    (laid : ∀ region, Owned sb (dinode sb view) (counts sb view) region ∅ view →
      Laid e view (region n) (blocks e.size.toNat)) :
    Consistent sb (setDinode sb view n e) := by
  rcases consistent.owned with ⟨region, owned⟩
  have early := consistent.ordered.inodes n inside
  refine ⟨consistent.ordered, region, ?_⟩
  have assigned : Owned sb (Function.update (dinode sb view) n e)
      (Function.update (counts sb view) n (blocks e.size.toNat))
      (Function.update region n (region n)) ∅ (Fs.setDinode sb view n e) := by
    apply owned.assign
    · exact fun i _ x member => consistent.setDinode_region inside owned x member
    · intro x below
      apply used_congr
      have start : sb.bmapstart ≤ sb.BBLOCK x := Nat.le_add_left ..
      apply setDinode_other
      omega
    · intro _ _
      exact (laid region owned).congr fun x => consistent.setDinode_region inside owned x
    · exact fun free => absurd ⟨inside, live⟩ free
    · exact fun x => Iff.rfl
    · exact fun _ _ loose => loose
  rw [Function.update_eq_self] at assigned
  apply assigned.congr_inodes
  · intro i _
    rw [dinode_setDinode, Function.update_apply]
  · intro i _
    rw [counts, dinode_setDinode, Function.update_apply, counts]
    split <;> rfl

/-- A free inode is taken. -/
theorem Consistent.fresh (consistent : Consistent sb view) (inside : n < sb.ninodes)
    (free : (dinode sb view n).type = 0) (live : type ≠ 0) :
    Consistent sb (Fs.setDinode sb view n (Dinode.fresh type)) := by
  apply consistent.setDinode inside live
  intro region owned
  have nothing : blocks (Dinode.fresh type).size.toNat = 0 := by
    change blocks 0 = 0
    decide
  rw [owned.none n fun allocated => allocated.2 free, nothing]
  exact Laid.empty

/-- Fields of an inode change, but not its size. -/
theorem Consistent.fields (consistent : Consistent sb view)
    (allocated : Allocated sb (dinode sb view) n) (live : e.type ≠ 0)
    (addrs : e.addrs = (dinode sb view n).addrs) (size : e.size = (dinode sb view n).size) :
    Consistent sb (Fs.setDinode sb view n e) := by
  apply consistent.setDinode allocated.1 live
  intro region owned
  rw [size]
  exact (owned.laid n allocated).of_addrs addrs

/-- Other inodes have the same contents. -/
theorem Consistent.contents_setDinode (consistent : Consistent sb view) (inside : n < sb.ninodes)
    (other : m ≠ n) (allocated : Allocated sb (dinode sb view) m) :
    contents sb (Fs.setDinode sb view n e) m = contents sb view m := by
  rcases consistent.owned with ⟨region, owned⟩
  have same : dinode sb (Fs.setDinode sb view n e) m = dinode sb view m := by
    rw [dinode_setDinode, if_neg other]
  rw [contents, same, contents]
  apply List.map_congr_left
  intro k member
  have below := List.mem_range.mp member
  rw [Nat.zero_add]
  apply (owned.laid m allocated).byte_congr
  · exact fun x => consistent.setDinode_region inside owned x
  · exact div_lt_blocks below

/-! ## `ialloc` -/

theorem iallocLoop_ends {post : Fin NINODE → Blocks Pid → Prop} {count : Nat}
    (quiet : ∀ b, s.holder b = none) (panics : ∀ message, mayPanic message) (positive : 0 < n)
    (all : n + count ≤ sb.ninodes)
    (taken : ∀ m ip t', 0 < m → m < sb.ninodes → (dinode sb s.view m).type = 0 →
      Got s.toTables p m ip t' → post ip
        { s with
          view := setDinode sb s.view m (Dinode.fresh type)
          toOps := s.toOps.absorb p (sb.IBLOCK m)
          toTables := t' }) :
    (blocksSystem sb task).Ends p mayPanic post
      ((iallocLoop type count n).expand (body sb)) s := by
  induction count generalizing n with
  | zero => exact System.Ends.panic (panics _)
  | succ count ih =>
      apply bind_ends
      rw [expand_perform]
      apply itake_ends (quiet _) (fun _ => panics _)
      · intro free
        apply iget_ends (fun _ _ => panics _)
        intro ip t' got
        exact taken n ip t' positive (by omega) free got
      · intro _
        exact ih (Nat.succ_pos n) (by omega)

/-- Allocate an inode. -/
theorem ialloc_ends {post : Fin NINODE → Blocks Pid → Prop}
    (quiet : ∀ b, s.holder b = none) (panics : ∀ message, mayPanic message)
    (taken : ∀ m ip t', 0 < m → m < sb.ninodes → (dinode sb s.view m).type = 0 →
      Got s.toTables p m ip t' → post ip
        { s with
          view := setDinode sb s.view m (Dinode.fresh type)
          toOps := s.toOps.absorb p (sb.IBLOCK m)
          toTables := t' }) :
    (blocksSystem sb task).Ends p mayPanic post ((ialloc sb type).expand (body sb)) s := by
  by_cases some : 0 < sb.ninodes
  · exact iallocLoop_ends quiet panics Nat.one_pos (by omega) taken
  · have none : sb.ninodes - 1 = 0 := by omega
    rw [ialloc, none]
    exact System.Ends.panic (panics _)

/-! ## A new file or device -/

/-- The process has locked a directory, which may get another entry, and nothing else. -/
structure Parent (sb : Superblock) (s : Blocks Pid) (p : Pid) (dp : Fin NINODE) : Prop where
  dir : InDir sb s p dp
  kept : (s.inode dp).nlink = 0 → 1 < s.ref dp
  unlocked : ∀ i, i ≠ dp → s.lock i = none
  live : ∀ i, 0 < s.ref i → Allocated sb (dinode sb s.view) (s.inum i)
  small : sb.ninodes ≤ 2 ^ 16

/-- A new inode is locked, and the files of the process are the same. -/
structure Created (sb : Superblock) (s : Blocks Pid) (p : Pid) (type : UInt16)
    (ip : Fin NINODE) (final : Blocks Pid) : Prop where
  number : final.inum ip < sb.ninodes
  free : (dinode sb s.view (final.inum ip)).type = 0
  typed : (dinode sb final.view (final.inum ip)).type = type
  mine : final.lock ip = some p
  referenced : 0 < final.ref ip
  linked : (final.inode ip).nlink ≠ 0
  quiet : ∀ b, final.holder b = none
  outstanding : final.log.outstanding = s.log.outstanding
  committing : final.log.committing = s.log.committing
  ftable : final.ftable = s.ftable
  ofile : final.ofile = s.ofile
  cwd : final.cwd = s.cwd

def newInode (type major minor : UInt16) : Dinode :=
  { Dinode.fresh type with major := major, minor := minor, nlink := 1 }

/-- A new inode has been locked and written, but has no name yet. -/
def initialised (sb : Superblock) (s : Blocks Pid) (p : Pid) (ip : Fin NINODE) (n : Nat)
    (type major minor : UInt16) : Blocks Pid :=
  { s with
    inum := Function.update s.inum ip n
    ref := Function.update s.ref ip 1
    valid := Function.update s.valid ip true
    hold := Function.update s.hold p (Function.update (s.hold p) ip (s.hold p ip + 1))
    lock := Function.update s.lock ip (some p)
    toOps := (s.toOps.absorb p (sb.IBLOCK n)).absorb p (sb.IBLOCK n)
    view := setDinode sb (setDinode sb s.view n (Dinode.fresh type)) n
      (newInode type major minor)
    inode := Function.update s.inode ip (newInode type major minor) }

section Initialised

variable (parent : Parent sb s p dp) (free : (dinode sb s.view n).type = 0)
  (spare : s.empty = some ip)

include parent

omit [DecidableEq Pid] in
theorem Parent.allocated : Allocated sb (dinode sb s.view) (s.inum dp) :=
  parent.live dp parent.dir.referenced

section Free

include free

omit [DecidableEq Pid] in
/-- The directory is another inode. -/
theorem Parent.inum_ne : s.inum dp ≠ n := by
  rintro rfl
  exact parent.allocated.2 free

omit [DecidableEq Pid] in
theorem Parent.dinode_same : dinode sb
    (setDinode sb (setDinode sb s.view n (Dinode.fresh type)) n (newInode type major minor))
      (s.inum dp) = dinode sb s.view (s.inum dp) := by
  have other := parent.inum_ne free
  rw [dinode_setDinode, if_neg other, dinode_setDinode, if_neg other]

variable (inside : n < sb.ninodes) (live : type ≠ 0)

include inside live

omit [DecidableEq Pid] in
theorem Parent.consistent : Consistent sb
    (setDinode sb (setDinode sb s.view n (Dinode.fresh type)) n (newInode type major minor)) := by
  have fresh : dinode sb (setDinode sb s.view n (Dinode.fresh type)) n = Dinode.fresh type := by
    rw [dinode_setDinode, if_pos rfl]
  apply (parent.dir.consistent.fresh inside free live).fields
  · refine ⟨inside, ?_⟩
    rw [fresh]
    exact live
  · exact live
  · rw [fresh]
    rfl
  · rw [fresh]
    rfl

omit [DecidableEq Pid] in
theorem Parent.contents_same : contents sb
    (setDinode sb (setDinode sb s.view n (Dinode.fresh type)) n (newInode type major minor))
      (s.inum dp) = contents sb s.view (s.inum dp) := by
  have other := parent.inum_ne free
  have first := parent.dir.consistent.fresh inside free live
  rw [first.contents_setDinode inside other,
    parent.dir.consistent.contents_setDinode inside other parent.allocated]
  refine ⟨parent.allocated.1, ?_⟩
  rw [dinode_setDinode, if_neg other]
  exact parent.allocated.2

include spare

theorem Parent.initialised :
    InDir sb (Fs.initialised sb s p ip n type major minor) p dp ∧
      (Fs.initialised sb s p ip n type major minor).dir sb dp = s.dir sb dp := by
  have unused := Tables.of_empty spare
  have other : dp ≠ ip := by
    rintro rfl
    exact absurd unused parent.dir.referenced.ne'
  have inum : (Fs.initialised sb s p ip n type major minor).inum dp = s.inum dp :=
    Function.update_of_ne other ..
  have inode : (Fs.initialised sb s p ip n type major minor).inode dp = s.inode dp :=
    Function.update_of_ne other ..
  have bytes : contents sb (Fs.initialised sb s p ip n type major minor).view
      ((Fs.initialised sb s p ip n type major minor).inum dp) =
        contents sb s.view (s.inum dp) := by
    rw [inum]
    exact parent.contents_same free inside live
  constructor
  · constructor
    · exact parent.consistent free inside live
    · constructor
      · exact (Function.update_of_ne other ..).trans parent.dir.locked.mine
      · exact (Function.update_of_ne other ..).trans parent.dir.locked.valid
      · rw [inum]
        exact parent.dir.locked.inside
      · rw [inode, inum, parent.dir.locked.copy]
        exact (parent.dinode_same free).symm
      · rw [inode]
        exact parent.dir.locked.type
      · exact parent.dir.locked.quiet
    · rw [inode]
      exact parent.dir.type
    · exact parent.dir.referenced.trans_eq (Function.update_of_ne other ..).symm
    · rw [bytes]
      exact parent.dir.whole
  · rw [Blocks.dir, bytes, Blocks.dir]

end Free

end Initialised

/-- The new inode gets a name in the directory, which is given back. -/
theorem named_ends {post : Fin NINODE → Blocks Pid → Prop} (parent : Parent sb s p dp)
    (panics : ∀ message, mayPanic message) (live : type ≠ 0)
    (absent : Slots.find (cut name) (s.dir sb dp) = none)
    (inside : n < sb.ninodes) (positive : 0 < n) (free : (dinode sb s.view n).type = 0)
    (spare : s.empty = some ip)
    (holds : ∀ ip final, Created sb s p type ip final → post ip final) :
    (blocksSystem sb task).Ends p mayPanic post
      (Prog.expand (body sb) do
        if ← dirlink devsw dp name n then
          iunlockput dp
          return ip
        else
          .panic "create: dirlink\n")
      (initialised sb s p ip n type major minor) := by
  have first : InDir sb (initialised sb s p ip n type major minor) p dp ∧ _ :=
    parent.initialised free spare inside live
  rcases first with ⟨dir, slots⟩
  have unused := Tables.of_empty spare
  have other : ip ≠ dp := by
    rintro rfl
    exact absurd unused parent.dir.referenced.ne'
  have inum_dp : (initialised sb s p ip n type major minor).inum dp = s.inum dp :=
    Function.update_of_ne other.symm ..
  have inum_ip : (initialised sb s p ip n type major minor).inum ip = n :=
    Function.update_self ..
  have ref_dp : (initialised sb s p ip n type major minor).ref dp = s.ref dp :=
    Function.update_of_ne other.symm ..
  have inode_ip : (initialised sb s p ip n type major minor).inode ip =
      newInode type major minor := Function.update_self ..
  have inode_dp : (initialised sb s p ip n type major minor).inode dp = s.inode dp :=
    Function.update_of_ne other.symm ..
  have small : n < 2 ^ 16 := inside.trans_le parent.small
  have missing : Slots.find (cut name)
      ((initialised sb s p ip n type major minor).dir sb dp) = none := by
    rw [slots]
    exact absent
  apply bind_ends
  apply dirlink_ends dir positive small
  · intro i idle
    have ne_ip : i ≠ ip := by
      rintro rfl
      exact absurd (idle.symm.trans (Function.update_self i 1 s.ref)) (by decide)
    have ne_dp : i ≠ dp := by
      rintro rfl
      rw [ref_dp] at idle
      exact parent.dir.referenced.ne' idle
    exact (Function.update_of_ne ne_ip ..).trans (parent.unlocked i ne_dp)
  · exact fun _ _ _ _ _ => panics _
  · rw [missing]
    exact fun _ _ _ found => nomatch found
  · rw [missing]
    exact fun _ _ _ _ found => nomatch found
  · exact fun message _ _ => panics message
  · intro final _ linked
    have tables := linked.tables
    rcases linked.ops with ⟨bs, ops⟩
    have kept_ip : final.inode ip = newInode type major minor :=
      (linked.copies ip other).trans inode_ip
    have number : final.inum ip = n := (congrArg (fun t => t.inum ip) tables).trans inum_ip
    have dinode_ip : dinode sb final.view n = newInode type major minor := by
      rw [(linked.others n inside (by rw [inum_dp]; exact (parent.inum_ne free).symm)).1]
      exact dinode_setDinode.trans (if_pos rfl)
    change (blocksSystem sb task).Ends p mayPanic post
      (Prog.expand (body sb) (iunlockput dp >>= fun _ => .ret ip)) final
    apply bind_ends
    apply iunlockput_ends
    · rw [tables, ref_dp]
      exact parent.dir.referenced
    · exact linked.dir.locked.mine
    · intro _ unlinked
      rw [linked.links, inode_dp] at unlinked
      rw [tables, ref_dp]
      exact (parent.kept unlinked).ne'
    · apply System.Ends.ret
      apply holds
      constructor
      · change final.inum ip < sb.ninodes
        rw [number]
        exact inside
      · change (dinode sb s.view (final.inum ip)).type = 0
        rw [number]
        exact free
      · change (dinode sb final.view (final.inum ip)).type = type
        rw [number, dinode_ip]
        rfl
      · change Function.update final.lock dp none ip = some p
        rw [Function.update_of_ne other, tables]
        exact Function.update_self ..
      · change 0 < Function.update final.ref dp (final.ref dp - 1) ip
        rw [Function.update_of_ne other, tables]
        exact Nat.one_pos.trans_eq (Function.update_self ip 1 s.ref).symm
      · change (final.inode ip).nlink ≠ 0
        rw [kept_ip]
        exact (by decide : (1 : UInt16) ≠ 0)
      · exact linked.dir.locked.quiet
      · change final.toOps.log.outstanding = s.log.outstanding
        rw [ops, Logging.Ops.absorbs_outstanding]
        rfl
      · change final.toOps.log.committing = s.log.committing
        rw [ops, Logging.Ops.absorbs_committing]
        rfl
      · exact congrArg (fun t => t.ftable) tables
      · exact congrArg (fun t => t.ofile) tables
      · exact congrArg (fun t => t.cwd) tables

/-- The second half of `create`, without the entries of a directory. -/
theorem createNew_ends {post : Fin NINODE → Blocks Pid → Prop} (parent : Parent sb s p dp)
    (panics : ∀ message, mayPanic message) (noDirectory : type ≠ T_DIR) (live : type ≠ 0)
    (absent : Slots.find (cut name) (s.dir sb dp) = none)
    (holds : ∀ ip final, Created sb s p type ip final → post ip final) :
    (blocksSystem sb task).Ends p mayPanic post
      ((createNew devsw sb dp name type major minor).expand (body sb)) s := by
  apply bind_ends
  apply ialloc_ends parent.dir.locked.quiet panics
  intro n ip t' positive inside free got
  -- The inode was free, so no entry of the cache is for it.
  have spare : s.empty = some ip ∧ t' = s.toTables.recycle p ip n := by
    cases got with
    | found here =>
        have known := Tables.of_find here
        have allocated := parent.live ip known.1
        rw [known.2] at allocated
        exact absurd free allocated.2
    | recycled missing spare => exact ⟨spare, rfl⟩
  rcases spare with ⟨spare, rfl⟩
  have unused := Tables.of_empty spare
  have other : ip ≠ dp := by
    rintro rfl
    exact absurd unused parent.dir.referenced.ne'
  have fresh : dinode sb (setDinode sb s.view n (Dinode.fresh type)) n = Dinode.fresh type := by
    rw [dinode_setDinode, if_pos rfl]
  have number : (s.toTables.recycle p ip n).inum ip = n := Function.update_self ..
  apply bind_ends
  apply ilock_ends
  · exact Nat.one_pos.trans_eq (Function.update_self ip 1 s.ref).symm
  · exact parent.unlocked ip other
  · exact parent.dir.locked.quiet _
  · intro valid
    change Function.update s.valid ip false ip = true at valid
    rw [Function.update_self] at valid
    cases valid
  · change (dinode sb _ ((s.toTables.recycle p ip n).inum ip)).type ≠ 0
    rw [number, fresh]
    exact live
  · apply System.Ends.step rfl
    apply System.Ends.step rfl
    apply System.Ends.step rfl
    change (blocksSystem sb task).Ends p _ _
      (Prog.expand _ (perform (.iupdate ip) >>= _)) _
    apply bind_ends
    rw [expand_perform]
    apply iupdate_ends
    · exact parent.dir.locked.quiet _
    · exact fun _ => panics _
    · apply System.Ends.step rfl
      change (blocksSystem sb task).Ends p _ _ (Prog.expand _ (if type = T_DIR then _ else _)) _
      rw [if_neg noDirectory]
      simp only [Tables.recycle, Function.update_self, Function.update_idem, fresh]
      change (blocksSystem sb task).Ends p _ _ _ (initialised sb s p ip n type major minor)
      exact named_ends parent panics live absent inside positive free spare holds

end PiKernel.Fs
