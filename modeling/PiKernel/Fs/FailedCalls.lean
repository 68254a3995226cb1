import PiKernel.Fs.Create
import PiKernel.Conc.Partial

/-!
# System calls that fail

`openat`, `mkdirat`, `mknodat` and `chdir`, where no other process runs.  A search that fails
has changed nothing, and a search is all that most failing calls have done.  Only `openat`
may fail after it has created a file.
-/

namespace PiKernel.Fs

open PiKernel.Bytes
open PiKernel.Conc

variable {Pid : Type}

/-! ## Arguments -/

/-- The directory descriptor for the current directory. -/
def AT_FDCWD : Int := -100

section Arguments

variable (devsw : Devsw) (sb : Superblock) (dirfd : Int) (path : Option (List UInt8))

/-- `sys_openat`; the path is what `argstr` finds. -/
def sysOpenat (omode : OMode) : Prog (Act Pid) (Option Nat) :=
  match path with
  | none => return none
  | some path =>
      if dirfd ≠ AT_FDCWD then
        return none
      else
        sys_openat devsw sb path omode

def sysMkdirat (mode : Int) : Prog (Act Pid) (Option Unit) :=
  match path with
  | none => return none
  | some path =>
      if dirfd ≠ AT_FDCWD then
        return none
      else if mode ≠ 0 then
        return none
      else
        sys_mkdirat devsw sb path

def sysMknodat (major minor : UInt16) : Prog (Act Pid) (Option Unit) :=
  match path with
  | none => return none
  | some path =>
      if dirfd ≠ AT_FDCWD then
        return none
      else
        sys_mknodat devsw sb path major minor

/-- The operation begins before the argument is checked. -/
def sysChdir : Prog (Act Pid) (Option Unit) :=
  match path with
  | none => do
      beginOp
      endOp
      return none
  | some path => sys_chdir devsw path

end Arguments

variable [DecidableEq Pid] {sb : Superblock}
  {task : Tables Pid → Pid → Prog (Act Pid) Unit → Prop} {p : Pid}
  {s t u : Blocks Pid} {dir dp ip : Fin NINODE} {devsw : Devsw} {name path : List UInt8}
  {n : Nat} {type major minor : UInt16}

/-! ## Nothing has changed -/

/-- The inodes of the volume, the open files, and where the process is. -/
structure Unchanged (sb : Superblock) (s final : Blocks Pid) : Prop where
  inodes : ∀ n, n < sb.ninodes → dinode sb final.view n = dinode sb s.view n ∧
    contents sb final.view n = contents sb s.view n
  ftable : final.ftable = s.ftable
  ofile : final.ofile = s.ofile
  cwd : final.cwd = s.cwd
  /-- The cached inodes of open files and of current directories are the same. -/
  inum : ∀ i, 0 < s.ref i → final.inum i = s.inum i

/-- If the call returns -1, nothing has changed. -/
def FailsCleanly {α : Type} (sb : Superblock)
    (task : Tables Pid → Pid → Prog (Act Pid) Unit → Prop) (s : Blocks Pid) (p : Pid)
    (call : Prog (Act Pid) (Option α)) : Prop :=
  ∀ value final, (blocksSystem sb task).Completes p (call.expand (body sb)) s value final →
    value = none → Unchanged sb s final

/-- A process between its system calls, and no other one in the middle of one. -/
structure Resting (sb : Superblock) (s : Blocks Pid) (p : Pid) (dir : Fin NINODE) : Prop where
  settled : Settled sb s
  noOps : NoOps s p
  cwd : s.cwd p = some dir
  referenced : 0 < s.ref dir
  live : ∀ i, 0 < s.ref i → Allocated sb (dinode sb s.view) (s.inum i)
  closed : ∀ f, (s.ftable f).ref = 0 → (s.ftable f).type = .FD_NONE
  small : sb.ninodes ≤ 2 ^ 16

omit [DecidableEq Pid] in
/-- A search only. -/
theorem Searched.unchanged (searched : Searched sb s t) : Unchanged sb s t where
  inodes _ _ := by rw [searched.view]; exact ⟨rfl, rfl⟩
  ftable := searched.ftable
  ofile := searched.ofile
  cwd := searched.cwd
  inum := searched.inum

/-! ## Partial rules -/

/-- A part that ends, and one of which it matters what it leaves. -/
theorem bind_leaves {α β : Type} {program : Prog (Act Pid) α} {next : α → Prog (Act Pid) β}
    {post : β → Blocks Pid → Prop}
    (ends : (blocksSystem sb task).Ends p (fun _ => True)
      (fun value after =>
        (blocksSystem sb task).Leaves p post ((next value).expand (body sb)) after)
      (program.expand (body sb)) s) :
    (blocksSystem sb task).Leaves p post ((program >>= next).expand (body sb)) s := by
  rw [expand_bind]
  exact ends.leaves.bind

/-- A part that does not matter. -/
theorem skip_leaves {α β : Type} {program : Prog (Act Pid) α} {next : α → Prog (Act Pid) β}
    {post : β → Blocks Pid → Prop}
    (later : ∀ value after,
      (blocksSystem sb task).Leaves p post ((next value).expand (body sb)) after) :
    (blocksSystem sb task).Leaves p post ((program >>= next).expand (body sb)) s := by
  rw [expand_bind]
  exact (System.Leaves.always later).bind

omit [DecidableEq Pid] in
/-- The beginning of an operation matters to the log only. -/
theorem Settled.began [DecidableEq Pid] (settled : Settled sb s) : Settled sb (began s p) :=
  ⟨settled.tree, settled.unlocked, settled.quiet, settled.copies⟩

/-! ## A file and a descriptor -/

/-- All open files or all descriptors are in use. -/
def NoRoom (s : Blocks Pid) (p : Pid) : Prop :=
  (∀ f, (s.ftable f).ref ≠ 0) ∨ ∀ fd, s.ofile p fd ≠ none

/-- `sys_openat` has locked the inode that it opens. -/
structure Opening (s : Blocks Pid) (p : Pid) (ip : Fin NINODE) (u : Blocks Pid) : Prop where
  mine : u.lock ip = some p
  referenced : 0 < u.ref ip
  kept : u.valid ip = true → (u.inode ip).nlink = 0 → u.ref ip ≠ 1
  outstanding : u.log.outstanding = 1
  committing : u.log.committing = false
  ftable : u.ftable = s.ftable
  ofile : u.ofile = s.ofile
  cwd : u.cwd = s.cwd

/-- The inode is given back and the call returns -1. -/
theorem Opening.fails {post : Option Nat → Blocks Pid → Prop} (opening : Opening s p ip u)
    (holds : ∀ final, final.view = u.view → final.inum = u.inum → final.ftable = s.ftable →
      final.ofile = s.ofile → final.cwd = s.cwd → post none final) :
    (blocksSystem sb task).Leaves p post
      (Prog.expand (body sb) do
        iunlockput ip
        endOp
        return none) u := by
  apply bind_leaves
  apply iunlockput_ends opening.referenced opening.mine opening.kept
  apply bind_leaves
  apply endOp_ends
  · exact opening.outstanding
  · exact opening.committing
  · apply System.Leaves.ret
    exact holds _ rfl rfl opening.ftable opening.ofile opening.cwd

/-- The state between `filealloc` and the end of `sys_openat`. -/
def filealloced (u : Blocks Pid) (p : Pid) (f : Fin NFILE) : Blocks Pid :=
  { u with
    toTables := (u.toTables.setFile f { u.ftable f with ref := 1 }).setFhold p f
      (u.fhold p f + 1) }

/-- Allocate a file structure. -/
theorem filealloc_ends {post : Option (Fin NFILE) → Blocks Pid → Prop} {mayPanic : String → Prop}
    (full : (∀ f, (u.ftable f).ref ≠ 0) → post none u)
    (found : ∀ f, (u.ftable f).ref = 0 → post (some f) (filealloced u p f)) :
    (blocksSystem sb task).Ends p mayPanic post (filealloc.expand (body sb)) u := by
  have effect : (blocksSystem sb task).exec (.left .filealloc) p u =
      .done (u.toTables.filealloc p).1 { u with toTables := (u.toTables.filealloc p).2 } := rfl
  apply System.Ends.perform effect
  rw [Tables.filealloc]
  cases search : (List.finRange NFILE).find? fun f => (u.ftable f).ref == 0 with
  | none =>
      apply full
      intro f unused
      have missed := List.find?_eq_none.mp search f (List.mem_finRange f)
      simp [unused] at missed
  | some f =>
      have unused := List.find?_some search
      exact found f (beq_iff_eq.mp unused)

/-- A file structure that has just been allocated is closed again. -/
theorem fileclose_ends {post : Unit → Blocks Pid → Prop} {mayPanic : String → Prop}
    {f : Fin NFILE} (unused : (u.ftable f).ref = 0) (closed : (u.ftable f).type = .FD_NONE)
    (holds : ∀ hold fhold, post () { u with hold := hold, fhold := fhold }) :
    (blocksSystem sb task).Ends p mayPanic post ((fileclose f).expand (body sb))
      (filealloced u p f) := by
  have file : (filealloced u p f).ftable f = { u.ftable f with ref := 1 } :=
    Function.update_self ..
  have same : { u.ftable f with ref := 0, type := .FD_NONE } = u.ftable f := by
    rw [← unused, ← closed]
  have table : Function.update (filealloced u p f).ftable f (u.ftable f) = u.ftable := by
    change Function.update (Function.update u.ftable f _) f _ = _
    rw [Function.update_idem, Function.update_eq_self]
  have closing : (filealloced u p f).toTables.fileclose p f =
      (.last { u.ftable f with ref := 1 },
        { u.toTables with
          fhold := (((filealloced u p f).toTables.setFile f (u.ftable f)).setFhold p f
            ((filealloced u p f).fhold p f - 1)).fhold }) := by
    rw [Tables.fileclose, file]
    simp only [closed, Nat.lt_irrefl, Nat.sub_self, gt_iff_lt, if_false, same]
    rw [Tables.setFile, table]
    rfl
  have effect : (blocksSystem sb task).exec (.left (.fileclose f)) p (filealloced u p f) =
      .done ((filealloced u p f).toTables.fileclose p f).1
        { filealloced u p f with toTables := ((filealloced u p f).toTables.fileclose p f).2 } :=
    rfl
  rw [closing] at effect
  apply System.Ends.step effect
  simp only [closed]
  exact System.Ends.ret (holds _ _)

/-- `fdalloc` looks at the descriptors of the process in order. -/
theorem fdallocLoop_ends {post : Option (Fin NOFILE) → Blocks Pid → Prop} {f : Fin NFILE}
    {fds : List (Fin NOFILE)} {mayPanic : String → Prop}
    (full : (∀ fd ∈ fds, s.ofile p fd ≠ none) → post none s)
    (found : ∀ fd ∈ fds, s.ofile p fd = none → ∀ final, post (some fd) final) :
    (blocksSystem sb task).Ends p mayPanic post ((fdallocLoop f fds).expand (body sb)) s := by
  induction fds with
  | nil =>
      apply System.Ends.ret
      apply full
      exact fun fd member => nomatch member
  | cons fd fds ih =>
      have effect : (blocksSystem sb task).exec (.left (.ofile fd)) p s =
          .done (s.ofile p fd) s := rfl
      apply System.Ends.step effect
      cases used : s.ofile p fd with
      | none =>
          apply System.Ends.step rfl
          apply System.Ends.ret
          exact found fd List.mem_cons_self used _
      | some g =>
          apply ih
          · intro others
            apply full
            intro fd' member
            rcases List.mem_cons.mp member with rfl | member
            · rw [used]
              exact Option.some_ne_none g
            · exact others fd' member
          · exact fun fd' member => found fd' (List.mem_cons_of_mem _ member)

/-- The second half of `sys_openat`. -/
def openFile (ip : Fin NINODE) (omode : OMode) : Prog (Act Pid) (Option Nat) := do
  match ← filealloc with
  | none =>
      iunlockput ip
      endOp
      return none
  | some f =>
      match ← fdalloc f with
      | none =>
          fileclose f
          iunlockput ip
          endOp
          return none
      | some fd =>
          iunlock ip
          endOp
          table (.openFile f ip (!omode.wronly) (omode.wronly || omode.rdwr))
          return some fd.val

omit [DecidableEq Pid] in
theorem sys_openat_eq {omode : OMode} (largefile : omode.largefile = true) :
    (sys_openat devsw sb path omode : Prog (Act Pid) (Option Nat)) = (do
      beginOp
      match ← openInode devsw sb path omode with
      | none =>
          endOp
          return none
      | some ip => openFile ip omode) := by
  rw [sys_openat, largefile]
  rfl

/-- The inode is opened unless there is no room, and then it is given back. -/
theorem Opening.openFile_leaves {post : Option Nat → Blocks Pid → Prop} {omode : OMode}
    (opening : Opening s p ip u)
    (closed : ∀ f, (s.ftable f).ref = 0 → (s.ftable f).type = .FD_NONE)
    (fails : NoRoom s p → ∀ final, final.view = u.view → final.inum = u.inum →
      final.ftable = s.ftable → final.ofile = s.ofile → final.cwd = s.cwd → post none final)
    (opens : ¬ NoRoom s p → ∀ fd : Fin NOFILE, ∀ final, post (some fd.val) final) :
    (blocksSystem sb task).Leaves p post ((openFile ip omode).expand (body sb)) u := by
  apply bind_leaves
  apply filealloc_ends
  · intro full
    apply opening.fails
    apply fails
    left
    rwa [opening.ftable] at full
  · intro f unused
    rw [opening.ftable] at unused
    apply bind_leaves
    apply fdallocLoop_ends
    · intro full
      have room : NoRoom s p := by
        right
        intro fd
        rw [← opening.ofile]
        exact full fd (List.mem_finRange fd)
      have type : (u.ftable f).type = .FD_NONE := by
        rw [opening.ftable]
        exact closed f unused
      rw [← opening.ftable] at unused
      apply bind_leaves
      apply fileclose_ends unused type
      intro hold fhold
      have opening' : Opening s p ip { u with hold := hold, fhold := fhold } :=
        ⟨opening.mine, opening.referenced, opening.kept, opening.outstanding,
          opening.committing, opening.ftable, opening.ofile, opening.cwd⟩
      exact opening'.fails (fails room)
    · intro fd _ spare final
      have room : ¬ NoRoom s p := by
        rintro (files | descriptors)
        · exact files f unused
        · apply descriptors fd
          rw [← opening.ofile]
          exact spare
      apply skip_leaves
      intro _ _
      apply skip_leaves
      intro _ _
      apply skip_leaves
      intro _ after
      exact System.Leaves.ret (opens room fd after)

/-! ## `create` -/

/-- The directory of a path exists, and has no entry with the last name. -/
def Absent (sb : Superblock) (view : Nat → Block) (start : Nat) (names : List (List UInt8)) :
    Prop :=
  ∃ n name, followParent sb view start names = some n ∧ names.getLast? = some name ∧
    Slots.find (cut name) (slotsOf sb view n) = none

/-- The parent of a path is a directory. -/
theorem followParent_type {view : Nat → Block} {start : Nat} {names : List (List UInt8)}
    (found : followParent sb view start names = some n) : (dinode sb view n).type = T_DIR := by
  cases names with
  | nil => cases found
  | cons name rest => simpa using (Option.filter_eq_some_iff.mp found).2

/-- What `create` does before it creates an inode, and all that it does if it does not. -/
theorem create_leaves {post : Option (Fin NINODE) → Blocks Pid → Prop} (settled : Settled sb s)
    (cwd : s.cwd p = some dir) (used : 0 < s.ref dir)
    (live : Allocated sb (dinode sb s.view) (s.inum dir)) (nul : ∀ byte ∈ path, byte ≠ 0)
    (fails : ¬ Absent sb s.view (startOf s dir path) (components path) →
      ∀ final, Searched sb s final → post none final)
    (opens : ¬ Absent sb s.view (startOf s dir path) (components path) →
      ∀ ip n t, Holding sb s ip n t → post (some ip) (ilocked sb t p ip))
    (creates : Absent sb s.view (startOf s dir path) (components path) →
      ∀ dp n name t, Holding sb s dp n t → (dinode sb s.view n).type = T_DIR →
        Slots.find (cut name) ((ilocked sb t p dp).dir sb dp) = none →
        (blocksSystem sb task).Leaves p post
          (Prog.expand (body sb) do
            let ip ← createNew devsw sb dp name type major minor
            return some ip)
          (ilocked sb t p dp)) :
    (blocksSystem sb task).Leaves p post
      ((create devsw sb path type major minor).expand (body sb)) s := by
  apply bind_leaves
  apply System.Ends.mono (namex_ends settled cwd used live nul) (fun _ _ => trivial)
  rintro result t ⟨resolved, named⟩
  rw [resolve_followParent] at resolved
  cases target : followParent sb s.view (startOf s dir path) (components path) with
  | none =>
      rw [target] at resolved
      rcases resolved with ⟨none, searched, _⟩
      rw [Option.map_eq_none_iff.mp none]
      apply System.Leaves.ret
      apply fails _ t searched
      rintro ⟨n, name, found, _⟩
      rw [target] at found
      cases found
  | some n =>
      rw [target] at resolved
      rcases resolved with ⟨dp, result', holding⟩
      rcases Option.map_eq_some_iff.mp result' with ⟨⟨dp', name⟩, rfl, rfl⟩
      have last := named rfl _ rfl
      have type' := followParent_type target
      have slots : (ilocked sb t p dp').dir sb dp' = slotsOf sb s.view n := by
        change slotsOf sb t.view (t.inum dp') = _
        rw [holding.view, holding.inum_self]
      apply bind_leaves
      apply holding.ilock_ends
      apply bind_leaves
      apply dirlookup_ends (holding.inDir p type')
      · intro missing
        have absent : Absent sb s.view (startOf s dir path) (components path) := by
          rw [slots] at missing
          exact ⟨n, name, target, last, missing⟩
        exact creates absent dp' n name t holding type' missing
      · exact fun _ _ _ _ _ => trivial
      · intro j m ip t' found got
        rw [slots] at found
        have present : ¬ Absent sb s.view (startOf s dir path) (components path) := by
          rintro ⟨n', name', target', last', missing⟩
          rw [target] at target'
          rw [last] at last'
          cases target'
          cases last'
          rw [found] at missing
          cases missing
        have linkable : Linkable sb s.view m := by
          have tree := holding.settled.tree
          rw [holding.view] at tree
          exact tree.entries n holding.live type' (cut name) m
            (List.mem_of_getElem? (Slots.getElem?_of_find found))
        apply bind_leaves
        apply holding.advance_ends got linkable
        intro t'' holding'
        apply bind_leaves
        apply holding'.ilock_ends
        apply System.Leaves.step
        intro copy after done
        cases done
        change (blocksSystem sb task).Leaves p _ (Prog.expand _
          (if (decide (type = T_FILE) && decide (((ilocked sb t'' p ip).inode ip).type = T_FILE)) =
            true then _ else _)) _
        split
        · exact System.Leaves.ret (opens present ip m t'' holding')
        · apply bind_leaves
          apply holding'.iunlockput_ends
          intro final searched _
          exact System.Leaves.ret (fails present final searched)

/-! ## The calls -/

/-- A search, at the end of the operation. -/
theorem Searched.ended (searched : Searched sb (began s p) t) : Unchanged sb s (ended t p) :=
  ⟨searched.unchanged.inodes, searched.ftable, searched.ofile, searched.cwd, searched.inum⟩

section Resting

variable (resting : Resting sb s p dir)

include resting

theorem Resting.search_fails {α : Type} {post : Option α → Blocks Pid → Prop}
    (searched : Searched sb (began s p) t)
    (holds : ∀ final, Unchanged sb s final → post none final) :
    (blocksSystem sb task).Leaves p post
      (Prog.expand (body sb) do
        endOp
        return none) t := by
  apply bind_leaves
  apply endOp_ends
  · rw [searched.ops]
    rfl
  · rw [searched.ops]
    exact resting.noOps.committing
  · exact System.Leaves.ret (holds _ searched.ended)

/-- An inode that was there before is opened. -/
theorem Resting.opening (holding : Holding sb (began s p) ip n t) :
    Opening s p ip (ilocked sb t p ip) where
  mine := Function.update_self ..
  referenced := holding.referenced
  kept _ unlinked := by
    rw [holding.inode_self] at unlinked
    have several := holding.kept unlinked
    change t.ref ip ≠ 1
    rw [holding.ref, Function.update_self]
    omega
  outstanding := by
    change t.log.outstanding = 1
    rw [holding.ops]
    rfl
  committing := by
    change t.log.committing = false
    rw [holding.ops]
    exact resting.noOps.committing
  ftable := holding.ftable
  ofile := holding.ofile
  cwd := holding.cwd

/-- The directory of a new file. -/
theorem Resting.parent (holding : Holding sb (began s p) dp n t)
    (type : (dinode sb s.view n).type = T_DIR) : Parent sb (ilocked sb t p dp) p dp where
  dir := holding.inDir p type
  kept unlinked := by
    rw [holding.inode_self] at unlinked
    have several := holding.kept unlinked
    change 1 < t.ref dp
    rw [holding.ref, Function.update_self]
    exact Nat.succ_lt_succ several
  unlocked i other := (Function.update_of_ne other ..).trans (holding.settled.unlocked i)
  live i used := by
    change Allocated sb (dinode sb t.view) (t.inum i)
    change 0 < t.ref i at used
    rw [holding.view]
    by_cases same : i = dp
    · rw [same, holding.inum_self]
      exact holding.live
    · rw [holding.ref, Function.update_of_ne same] at used
      rw [holding.inum i used]
      exact resting.live i used
  small := resting.small

/-- A new inode is opened. -/
theorem Resting.created (holding : Holding sb (began s p) dp n t)
    (created : Created sb (ilocked sb t p dp) p type ip u) : Opening s p ip u where
  mine := created.mine
  referenced := created.referenced
  kept _ unlinked := absurd unlinked created.linked
  outstanding := by
    rw [created.outstanding]
    change t.log.outstanding = 1
    rw [holding.ops]
    rfl
  committing := by
    rw [created.committing]
    change t.log.committing = false
    rw [holding.ops]
    exact resting.noOps.committing
  ftable := created.ftable.trans holding.ftable
  ofile := created.ofile.trans holding.ofile
  cwd := created.cwd.trans holding.cwd

end Resting

/-- The new inode was free before. -/
theorem Created.changed (holding : Holding sb (began s p) dp n t)
    (created : Created sb (ilocked sb t p dp) p type ip u) (live : type ≠ 0)
    {final : Blocks Pid} (same : final.view = u.view) : ¬ Unchanged sb s final := by
  intro unchanged
  have inode := (unchanged.inodes _ created.number).1
  have free := created.free
  change (dinode sb t.view (u.inum ip)).type = 0 at free
  rw [holding.view] at free
  rw [same] at inode
  have typed := created.typed
  rw [inode] at typed
  exact live (typed.symm.trans free)

/-- The call creates a file and cannot open it. -/
def Strands (sb : Superblock) (s : Blocks Pid) (p : Pid) (dir : Fin NINODE) (dirfd : Int)
    (path : Option (List UInt8)) (omode : OMode) : Prop :=
  dirfd = AT_FDCWD ∧ omode.largefile = true ∧ omode.creat = true ∧ NoRoom s p ∧
    ∃ path' ∈ path, Absent sb s.view (startOf s dir path') (components path')

section Calls

variable (resting : Resting sb s p dir) (nul : ∀ byte ∈ path, byte ≠ 0)

include resting nul

/-- `create` in `sys_mkdirat` and `sys_mknodat`, which succeed if it does. -/
theorem Resting.make_leaves :
    (blocksSystem sb task).Leaves p
      (fun value final => value = none → Unchanged sb s final)
      (Prog.expand (body sb) do
        beginOp
        match ← create devsw sb path type major minor with
        | none =>
            endOp
            return none
        | some ip =>
            iunlockput ip
            endOp
            return some ()) s := by
  apply bind_leaves
  apply beginOp_ends resting.noOps
  rw [expand_bind]
  apply System.Leaves.bind
  have rest : ∀ ip after, (blocksSystem sb task).Leaves p
      (fun value final => value = none → Unchanged sb s final)
      (Prog.expand (body sb) do
        iunlockput ip
        endOp
        return some ()) after := by
    intro ip after
    apply skip_leaves
    intro _ _
    apply skip_leaves
    intro _ _
    exact System.Leaves.ret fun none => nomatch none
  apply create_leaves resting.settled.began resting.cwd resting.referenced
    (resting.live dir resting.referenced) nul
  · intro _ final searched
    exact resting.search_fails searched fun _ unchanged _ => unchanged
  · exact fun _ ip n t _ => rest ip _
  · intro _ dp n name t _ _ _
    apply skip_leaves
    intro ip after
    exact System.Leaves.ret (rest ip after)

/-- The search of `namei` in an operation. -/
theorem Resting.namei_ends {post : Option (Fin NINODE) → Blocks Pid → Prop}
    (fails : ∀ t, Searched sb (began s p) t → post none t)
    (found : ∀ ip n t, Holding sb (began s p) ip n t → post (some ip) t) :
    (blocksSystem sb task).Ends p (fun _ => True) post ((namei devsw path).expand (body sb))
      (began s p) := by
  apply bind_ends
  apply System.Ends.mono (namex_ends resting.settled.began resting.cwd resting.referenced
    (resting.live dir resting.referenced) nul) (fun _ _ => trivial)
  rintro result t ⟨resolved, _⟩
  apply System.Ends.ret
  rw [resolve_follow] at resolved
  cases target : follow sb s.view (startOf s dir path) (components path) with
  | none =>
      change Resolved sb (began s p) (follow sb s.view (startOf s dir path) (components path))
        _ _ at resolved
      rw [target] at resolved
      rcases resolved with ⟨none, searched, _⟩
      rw [none]
      exact fails t searched
  | some n =>
      change Resolved sb (began s p) (follow sb s.view (startOf s dir path) (components path))
        _ _ at resolved
      rw [target] at resolved
      rcases resolved with ⟨ip, result', holding⟩
      rw [result']
      exact found ip n t holding

theorem Resting.chdir_leaves :
    (blocksSystem sb task).Leaves p
      (fun value final => value = none → Unchanged sb s final)
      ((sys_chdir devsw path).expand (body sb)) s := by
  apply bind_leaves
  apply beginOp_ends resting.noOps
  apply bind_leaves
  apply resting.namei_ends nul
  · intro t searched
    exact resting.search_fails searched fun _ unchanged _ => unchanged
  · intro ip n t holding
    apply bind_leaves
    apply holding.ilock_ends
    apply System.Leaves.step
    intro copy after done
    cases done
    change (blocksSystem sb task).Leaves p _ (Prog.expand _
      (if ((ilocked sb t p ip).inode ip).type ≠ T_DIR then _ else _)) _
    split
    · apply bind_leaves
      apply holding.iunlockput_ends
      intro final searched _
      exact resting.search_fails searched fun _ unchanged _ => unchanged
    · apply skip_leaves
      intro _ _
      apply skip_leaves
      intro cwd _
      apply skip_leaves
      intro _ _
      apply skip_leaves
      intro _ _
      apply skip_leaves
      intro _ _
      exact System.Leaves.ret fun none => nomatch none

/-- What `openat` leaves: it has stranded a file, or nothing has changed if it fails. -/
def Opened (sb : Superblock) (s : Blocks Pid) (p : Pid) (dir : Fin NINODE)
    (path : List UInt8) (omode : OMode) (value : Option Nat) (final : Blocks Pid) : Prop :=
  (Strands sb s p dir AT_FDCWD (some path) omode → value = none ∧ ¬ Unchanged sb s final) ∧
    (¬ Strands sb s p dir AT_FDCWD (some path) omode → value = none → Unchanged sb s final)

/-- `openat` leaves a file behind, or nothing if it fails. -/
theorem Resting.openat_leaves {omode : OMode} (largefile : omode.largefile = true) :
    (blocksSystem sb task).Leaves p
      (Opened sb s p dir path omode)
      ((sys_openat devsw sb path omode).expand (body sb)) s := by
  -- An inode that was there before, with or without room to open it.
  have found (calm : ¬ Strands sb s p dir AT_FDCWD (some path) omode) {ip : Fin NINODE} {n : Nat}
      {t : Blocks Pid} (holding : Holding sb (began s p) ip n t) :
      (blocksSystem sb task).Leaves p (Opened sb s p dir path omode)
        ((openFile ip omode).expand (body sb)) (ilocked sb t p ip) := by
    apply (resting.opening holding).openFile_leaves resting.closed
    · intro _ final view inum ftable ofile cwd
      refine ⟨fun strands => absurd strands calm, fun _ _ => ⟨?_, ftable, ofile, cwd, ?_⟩⟩
      · intro m _
        rw [view]
        change dinode sb t.view m = _ ∧ contents sb t.view m = _
        rw [holding.view]
        exact ⟨rfl, rfl⟩
      · intro i used
        rw [inum]
        exact holding.inum i used
    · exact fun _ fd final => ⟨fun strands => absurd strands calm, fun _ none => nomatch none⟩
  have missed (calm : ¬ Strands sb s p dir AT_FDCWD (some path) omode) {t : Blocks Pid}
      (searched : Searched sb (began s p) t) :
      (blocksSystem sb task).Leaves p (Opened sb s p dir path omode)
        ((endOp >>= fun _ => .ret (none : Option Nat)).expand (body sb)) t :=
    resting.search_fails searched fun _ unchanged =>
      ⟨fun strands => absurd strands calm, fun _ _ => unchanged⟩
  rw [sys_openat_eq largefile]
  apply bind_leaves
  apply beginOp_ends resting.noOps
  rw [expand_bind]
  apply System.Leaves.bind
  rw [openInode]
  by_cases creat : omode.creat = true
  · rw [if_pos creat]
    apply create_leaves resting.settled.began resting.cwd resting.referenced
      (resting.live dir resting.referenced) nul
    · rintro present final searched
      apply missed _ searched
      rintro ⟨_, _, _, _, path', ⟨⟩, absent⟩
      exact present absent
    · rintro present ip n t holding
      apply found _ holding
      rintro ⟨_, _, _, _, path', ⟨⟩, absent⟩
      exact present absent
    · rintro absent dp n name t holding type missing
      apply bind_leaves
      apply createNew_ends (resting.parent holding type) (fun _ => trivial) (by decide) (by decide)
        missing
      intro ip u created
      apply System.Leaves.ret
      apply (resting.created holding created).openFile_leaves resting.closed
      · intro noRoom final view _ _ _ _
        constructor
        · exact fun _ => ⟨rfl, created.changed holding (by decide) view⟩
        · intro calm
          exact absurd ⟨rfl, largefile, creat, noRoom, path, rfl, absent⟩ calm
      · intro room fd final
        exact ⟨fun strands => absurd strands.2.2.2.1 room, fun _ none => nomatch none⟩
  · have calm : ¬ Strands sb s p dir AT_FDCWD (some path) omode :=
      fun strands => creat strands.2.2.1
    rw [if_neg creat]
    apply bind_leaves
    apply resting.namei_ends nul
    · exact fun t searched => System.Leaves.ret (missed calm searched)
    · intro ip n t holding
      apply bind_leaves
      apply holding.ilock_ends
      apply System.Leaves.step
      intro copy after done
      cases done
      change (blocksSystem sb task).Leaves p _ (Prog.expand _
        (if (decide (((ilocked sb t p ip).inode ip).type = T_DIR) && !omode.rdonly) = true
          then _ else _)) _
      split
      · apply bind_leaves
        apply holding.iunlockput_ends
        intro final searched _
        exact System.Leaves.ret (missed calm searched)
      · exact System.Leaves.ret (found calm holding)

end Calls

/-- The checks of the arguments leave everything alone. -/
theorem failsCleanly_none {α : Type} : FailsCleanly sb task s p (.ret (none : Option α)) := by
  intro value final completes _
  have ends : (blocksSystem sb task).Leaves p (fun _ final => final = s)
      ((Prog.ret (none : Option α) : Prog (Act Pid) (Option α)).expand (body sb)) s :=
    System.Leaves.ret rfl
  rw [ends.of_completes completes]
  exact ⟨fun _ _ => ⟨rfl, rfl⟩, rfl, rfl, rfl, fun _ _ => rfl⟩

theorem Resting.openat_clean_iff (resting : Resting sb s p dir) (dirfd : Int)
    (path : Option (List UInt8)) (nul : ∀ path' ∈ path, ∀ byte ∈ path', byte ≠ 0)
    (omode : OMode) {value : Option Nat} {final : Blocks Pid}
    (completes : (blocksSystem sb task).Completes p
      ((sysOpenat devsw sb dirfd path omode).expand (body sb)) s value final) :
    (value = none → Unchanged sb s final) ↔ ¬ Strands sb s p dir dirfd path omode := by
  have early (same : (sysOpenat devsw sb dirfd path omode : Prog (Act Pid) _) = .ret none)
      (calm : ¬ Strands sb s p dir dirfd path omode) :
      (value = none → Unchanged sb s final) ↔ ¬ Strands sb s p dir dirfd path omode := by
    rw [same] at completes
    exact iff_of_true (failsCleanly_none value final completes) calm
  cases path with
  | none =>
      apply early rfl
      rintro ⟨_, _, _, _, path', ⟨⟩, _⟩
  | some path =>
      by_cases here : dirfd = AT_FDCWD
      · subst here
        by_cases largefile : omode.largefile = true
        · have call : (sysOpenat devsw sb AT_FDCWD (some path) omode : Prog (Act Pid) _) =
              sys_openat devsw sb path omode := by
            simp [sysOpenat]
          rw [call] at completes
          have opened := (resting.openat_leaves (nul path rfl) largefile).of_completes completes
          constructor
          · intro clean strands
            have failed := opened.1 strands
            exact failed.2 (clean failed.1)
          · exact opened.2
        · apply early
          · simp only [Bool.not_eq_true] at largefile
            simp [sysOpenat, sys_openat, largefile]
          · exact fun strands => largefile strands.2.1
      · apply early
        · exact if_pos here
        · exact fun strands => here strands.1

/--
`mkdirat`, `mknodat` and `chdir` change nothing if they fail.  `openat` does so but where it
creates a file for which there is no file structure or no descriptor.
-/
theorem failed_calls_change_nothing (devsw : Devsw) (resting : Resting sb s p dir) (dirfd : Int)
    (path : Option (List UInt8)) (nul : ∀ path' ∈ path, ∀ byte ∈ path', byte ≠ 0)
    (omode : OMode) (mode : Int) (major minor : UInt16) :
    (∀ value final, (blocksSystem sb task).Completes p
        ((sysOpenat devsw sb dirfd path omode).expand (body sb)) s value final →
      ((value = none → Unchanged sb s final) ↔ ¬ Strands sb s p dir dirfd path omode)) ∧
    FailsCleanly sb task s p (sysMkdirat devsw sb dirfd path mode) ∧
    FailsCleanly sb task s p (sysMknodat devsw sb dirfd path major minor) ∧
    FailsCleanly sb task s p (sysChdir devsw path) := by
  refine ⟨fun _ _ => resting.openat_clean_iff dirfd path nul omode, ?_, ?_, ?_⟩
  · cases path with
    | none => exact failsCleanly_none
    | some path =>
        rw [sysMkdirat]
        split_ifs
        · exact failsCleanly_none
        · exact failsCleanly_none
        · exact fun _ _ completes =>
            (resting.make_leaves (nul path rfl)).of_completes completes
  · cases path with
    | none => exact failsCleanly_none
    | some path =>
        rw [sysMknodat]
        split_ifs
        · exact failsCleanly_none
        · exact fun _ _ completes =>
            (resting.make_leaves (nul path rfl)).of_completes completes
  · cases path with
    | none =>
        intro value final completes
        have leaves : (blocksSystem sb task).Leaves p
            (fun value final => value = none → Unchanged sb s final)
            ((sysChdir devsw none).expand (body sb)) s := by
          apply bind_leaves
          apply beginOp_ends resting.noOps
          apply resting.search_fails resting.settled.began.searched
          exact fun _ unchanged _ => unchanged
        exact leaves.of_completes completes
    | some path =>
        exact fun _ _ completes =>
          (resting.chdir_leaves (nul path rfl)).of_completes completes

/-- The process at the root, with all descriptors in use or none. -/
def idleProcess (full : Bool) : Blocks Unit :=
  { atRoot 1 with
    ftable := fun f =>
      { type := .FD_NONE, ref := if full ∧ f.val = 0 then 16 else 0, readable := false
        writable := false, ip := none, off := 0 }
    ofile := fun _ _ => if full then some ⟨0, NFILE_pos⟩ else none
    log := { (atRoot 1).log with outstanding := 0 }
    current := fun _ => none }

theorem resting_idleProcess (full : Bool) :
    Resting treeDisk (idleProcess full) () firstEntry where
  settled :=
    { tree := tree_tree
      unlocked := (settled_atRoot 1).unlocked
      quiet := (settled_atRoot 1).quiet
      copies := (settled_atRoot 1).copies }
  noOps := ⟨rfl, rfl, rfl, rfl⟩
  cwd := rfl
  referenced := Nat.one_pos
  live i used := by
    apply allocated_tree.mpr
    have inside : i.val < 50 := i.isLt
    change 0 < (if i = firstEntry then 1 else i.val + 2) ∧
      (if i = firstEntry then 1 else i.val + 2) < 52
    split_ifs <;> omega
  closed _ _ := rfl
  small := by decide

def createLarge : OMode where
  wronly := true
  rdwr := false
  creat := true
  largefile := true
  rest := false

/-- An old file cannot be opened without a descriptor; it stays as it is. -/
theorem failed_calls_change_nothing_tree :
    ∃ final, treeOnly.Completes ()
        ((sysOpenat noDevices treeDisk AT_FDCWD (some [97]) createLarge).expand (body treeDisk))
        (idleProcess true) none final ∧
      Unchanged treeDisk (idleProcess true) final := by
  have fails : (treeOnly.run () ((sysOpenat noDevices treeDisk AT_FDCWD (some [97])
      createLarge).expand (body treeDisk)) (idleProcess true)).map Prod.fst = some none := by
    decide +kernel
  obtain ⟨⟨value, final⟩, ran, rfl⟩ := Option.map_eq_some_iff.mp fails
  have completes := System.run_completes ran
  have clean := (failed_calls_change_nothing noDevices (resting_idleProcess true) AT_FDCWD
    (some [97]) (by simp) createLarge 0 0 0).1 none final completes
  refine ⟨final, completes, clean.mpr ?_ rfl⟩
  rintro ⟨_, _, _, _, path, same, n, name, parent, last, absent⟩
  obtain rfl : [97] = path := Option.some.inj same
  have target : followParent treeDisk tree (startOf (idleProcess true) firstEntry [97])
      (components [97]) = some 1 := by
    decide
  obtain rfl : 1 = n := Option.some.inj (target.symm.trans parent)
  obtain rfl : [97] = name := Option.some.inj last
  change Slots.find (cut [97]) (slotsOf treeDisk tree 1) = none at absent
  rw [slotsOf, contents_tree, slots_tree] at absent
  exact absurd absent (by decide)

/-- The file is created, and there is no descriptor for it. -/
theorem not_failed_calls_change_nothing :
    ¬ ∀ (s : Blocks Unit) (dir : Fin NINODE) (path : List UInt8) (omode : OMode),
      Resting treeDisk s () dir → (∀ byte ∈ path, byte ≠ 0) →
      FailsCleanly treeDisk (fun _ _ _ => True) s ()
        (sysOpenat noDevices treeDisk AT_FDCWD (some path) omode) := by
  intro always
  have clean := always (idleProcess true) firstEntry [98] createLarge (resting_idleProcess true)
    (by simp)
  have call : (sysOpenat noDevices treeDisk AT_FDCWD (some [98]) createLarge :
      Prog (Act Unit) _) = sys_openat noDevices treeDisk [98] createLarge := by
    simp [sysOpenat]
  rw [call] at clean
  have returns : (treeOnly.run () ((sys_openat noDevices treeDisk [98] createLarge).expand
      (body treeDisk)) (idleProcess true)).isSome = true := by
    decide +kernel
  rcases Option.isSome_iff_exists.mp returns with ⟨⟨value, final⟩, ran⟩
  have completes := System.run_completes ran
  have opened : Opened treeDisk (idleProcess true) () firstEntry [98] createLarge value final :=
    ((resting_idleProcess true).openat_leaves (by simp) rfl).of_completes completes
  have absent : Absent treeDisk tree (startOf (idleProcess true) firstEntry [98])
      (components [98]) := by
    have target : followParent treeDisk tree (startOf (idleProcess true) firstEntry [98])
        (components [98]) = some 1 := by
      decide
    refine ⟨1, [98], target, by decide, ?_⟩
    rw [slotsOf, contents_tree, slots_tree]
    decide
  have strands : Strands treeDisk (idleProcess true) () firstEntry AT_FDCWD (some [98])
      createLarge :=
    ⟨rfl, rfl, rfl, Or.inr fun _ => Option.some_ne_none _, [98], rfl, absent⟩
  have failed := opened.1 strands
  exact failed.2 (clean value final completes failed.1)

end PiKernel.Fs
