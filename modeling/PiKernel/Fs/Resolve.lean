import PiKernel.Fs.Lookup
import PiKernel.Fs.Paths

/-!
# Path resolution

`namei` and `nameiparent` follow the components of a path through a directory tree, where no
other process runs.  They hold one reference at a time, and give back the one they come from
when they have the next.
-/

namespace PiKernel.Fs

open PiKernel.Bytes
open PiKernel.Conc

variable {Pid : Type} [DecidableEq Pid] {sb : Superblock}
  {task : Tables Pid → Pid → Prog (Act Pid) Unit → Prop} {p : Pid} {mayPanic : String → Prop}
  {s t : Blocks Pid} {ip i : Fin NINODE} {devsw : Devsw} {name path : List UInt8}
  {n m : Nat}

/-! ## Directory trees -/

/-- An entry of a directory may be for the inode. -/
structure Linkable (sb : Superblock) (view : Nat → Block) (n : Nat) : Prop where
  live : Allocated sb (dinode sb view) n
  links : (dinode sb view n).nlink ≠ 0

/-- The slots of the directory with a number. -/
def slotsOf (sb : Superblock) (view : Nat → Block) (n : Nat) : List (Slot (List UInt8) Nat) :=
  dirSlots (contents sb view n)

/-- Directories are arrays of entries for inodes that have links. -/
structure Tree (sb : Superblock) (view : Nat → Block) : Prop where
  consistent : Consistent sb view
  root : Linkable sb view ROOTINO
  whole : ∀ n, Allocated sb (dinode sb view) n → (dinode sb view n).type = T_DIR →
    DIRENT ∣ (contents sb view n).length
  entries : ∀ n, Allocated sb (dinode sb view) n → (dinode sb view n).type = T_DIR →
    ∀ name m, some (name, m) ∈ slotsOf sb view n → Linkable sb view m

/-- The inode that a component names, looked up in an inode. -/
def child (sb : Superblock) (view : Nat → Block) (n : Nat) (name : List UInt8) : Option Nat :=
  if (dinode sb view n).type = T_DIR then
    Slots.toMap (slotsOf sb view n) name
  else
    none

/-- The inode that is reached along some components. -/
def follow (sb : Superblock) (view : Nat → Block) (start : Nat) (names : List (List UInt8)) :
    Option Nat :=
  names.foldlM (child sb view) start

/-- The directory that has, or would have, the entry for a path. -/
def followParent (sb : Superblock) (view : Nat → Block) (start : Nat)
    (names : List (List UInt8)) : Option Nat :=
  match names with
  | [] => none
  | name :: rest =>
      (follow sb view start ((name :: rest).dropLast)).filter fun n =>
        (dinode sb view n).type = T_DIR

/-- What `namex` looks for, component by component. -/
def resolve (sb : Superblock) (view : Nat → Block) (parent : Bool) :
    Nat → List (List UInt8) → Option Nat
  | n, [] => if parent then none else some n
  | n, name :: rest =>
      if (dinode sb view n).type ≠ T_DIR then
        none
      else if parent && rest.isEmpty then
        some n
      else
        (Slots.toMap (slotsOf sb view n) name).bind fun m => resolve sb view parent m rest

variable {view : Nat → Block} {names : List (List UInt8)}

theorem resolve_follow : resolve sb view false n names = follow sb view n names := by
  induction names generalizing n with
  | nil => rfl
  | cons name rest ih =>
      rw [resolve, follow, List.foldlM_cons, child]
      by_cases type : (dinode sb view n).type = T_DIR
      · rw [if_neg (not_not.mpr type), if_pos type]
        have next : (fun m => resolve sb view false m rest) = fun m => follow sb view m rest :=
          funext fun m => ih
        rw [next]
        rfl
      · rw [if_pos type, if_neg type]
        rfl

theorem resolve_followParent :
    resolve sb view true n names = followParent sb view n names := by
  induction names generalizing n with
  | nil => rfl
  | cons name rest ih =>
      rw [resolve, followParent]
      cases rest with
      | nil =>
          by_cases type : (dinode sb view n).type = T_DIR
          · simp [follow, Option.filter, type]
          · simp [follow, Option.filter, type]
      | cons second rest =>
          rw [List.dropLast_cons_cons, follow, List.foldlM_cons, child]
          by_cases type : (dinode sb view n).type = T_DIR
          · rw [if_neg (not_not.mpr type), if_pos type]
            cases Slots.toMap (slotsOf sb view n) name with
            | none => rfl
            | some m => exact ih
          · rw [if_pos type, if_neg type]
            rfl

/-! ## References of a search -/

/-- The inode cache between system calls: no lock is held, and what is cached is true. -/
structure Settled (sb : Superblock) (s : Blocks Pid) : Prop where
  tree : Tree sb s.view
  unlocked : ∀ i, s.lock i = none
  quiet : ∀ b, s.holder b = none
  copies : ∀ i, 0 < s.ref i → s.valid i = true → s.inode i = dinode sb s.view (s.inum i)

/-- Only the cache has changed, but for the entries that were in use. -/
structure Searched (sb : Superblock) (s t : Blocks Pid) : Prop where
  settled : Settled sb t
  view : t.view = s.view
  ops : t.toOps = s.toOps
  inum : ∀ i, 0 < s.ref i → t.inum i = s.inum i
  ftable : t.ftable = s.ftable
  ofile : t.ofile = s.ofile
  cwd : t.cwd = s.cwd

/-- There is one more reference, which is to an inode. -/
structure Holding (sb : Superblock) (s : Blocks Pid) (ip : Fin NINODE) (n : Nat)
    (t : Blocks Pid) : Prop extends Searched sb s t where
  ref : t.ref = Function.update s.ref ip (s.ref ip + 1)
  inum_self : t.inum ip = n
  live : Allocated sb (dinode sb s.view) n
  /-- Giving it back does not free the inode. -/
  kept : (dinode sb s.view n).nlink = 0 → 0 < s.ref ip

/-- What a search returns, and the only reference it keeps. -/
def Resolved (sb : Superblock) (s : Blocks Pid) (target : Option Nat)
    (result : Option (Fin NINODE)) (final : Blocks Pid) : Prop :=
  match target with
  | none => result = none ∧ Searched sb s final ∧ final.ref = s.ref
  | some n => ∃ ip, result = some ip ∧ Holding sb s ip n final

/-- A search needs two entries of the cache. -/
def TooFewInodes (s : Blocks Pid) (message : String) : Prop :=
  message = noInodes ∧ (Finset.univ.filter fun i => s.ref i = 0).card < 2

omit [DecidableEq Pid] in
theorem Settled.searched (settled : Settled sb s) : Searched sb s s :=
  ⟨settled, rfl, rfl, fun _ _ => rfl, rfl, rfl, rfl⟩

/-- An entry whose copy is valid has been in use before. -/
theorem Got.of_valid {t t' : Tables Pid} (got : Got t p n ip t') (used : 0 < t'.ref i)
    (valid : t'.valid i = true) : 0 < t.ref i ∧ t.valid i = true ∧ t'.inum i = t.inum i := by
  rw [got.ref] at used
  cases got with
  | found here =>
      refine ⟨?_, valid, rfl⟩
      by_cases same : i = ip
      · rw [same]
        exact (Tables.of_find here).1
      · rwa [Function.update_of_ne same] at used
  | recycled _ spare =>
      have other : i ≠ ip := by
        rintro rfl
        change Function.update t.valid i false i = true at valid
        rw [Function.update_self] at valid
        cases valid
      rw [Function.update_of_ne other] at used
      refine ⟨used, ?_, Function.update_of_ne other ..⟩
      change Function.update t.valid ip false i = true at valid
      rwa [Function.update_of_ne other] at valid

theorem Got.files {t t' : Tables Pid} (got : Got t p n ip t') :
    t'.ftable = t.ftable ∧ t'.ofile = t.ofile ∧ t'.cwd = t.cwd := by
  cases got <;> exact ⟨rfl, rfl, rfl⟩

/-- The first reference of a search. -/
theorem Settled.got {t' : Tables Pid} (settled : Settled sb s) (got : Got s.toTables p n ip t')
    (live : Allocated sb (dinode sb s.view) n)
    (kept : (dinode sb s.view n).nlink = 0 → 0 < s.ref ip) :
    Holding sb s ip n { s with toTables := t' } where
  settled :=
    { tree := settled.tree
      unlocked := fun i => by
        change t'.lock i = none
        rw [got.lock]
        exact settled.unlocked i
      quiet := settled.quiet
      copies := fun i used valid => by
        rcases got.of_valid used valid with ⟨used, valid, inum⟩
        change s.inode i = dinode sb s.view (t'.inum i)
        rw [inum]
        exact settled.copies i used valid }
  view := rfl
  ops := rfl
  inum _ used := got.inum_used used
  ftable := got.files.1
  ofile := got.files.2.1
  cwd := got.files.2.2
  ref := got.ref
  inum_self := got.inum_self
  live := live
  kept := kept

/-- Another reference to an inode. -/
theorem Settled.idup (settled : Settled sb s) (used : 0 < s.ref ip)
    (live : Allocated sb (dinode sb s.view) (s.inum ip)) :
    Holding sb s ip (s.inum ip) { s with toTables := s.toTables.idup p ip } where
  settled :=
    { tree := settled.tree
      unlocked := settled.unlocked
      quiet := settled.quiet
      copies := fun i used' valid => by
        apply settled.copies i _ valid
        change 0 < Function.update s.ref ip (s.ref ip + 1) i at used'
        rw [Function.update_apply] at used'
        split at used' <;> rename_i same
        · rw [same]
          exact used
        · exact used' }
  view := rfl
  ops := rfl
  inum _ _ := rfl
  ftable := rfl
  ofile := rfl
  cwd := rfl
  ref := rfl
  inum_self := rfl
  live := live
  kept _ := used

/-! ## One step of a search -/

/-- One more here, one more there, and one less here. -/
theorem update_move {Index : Type} [DecidableEq Index] {count : Index → Nat} {here there : Index} :
    Function.update
      (Function.update (Function.update count here (count here + 1)) there
        (Function.update count here (count here + 1) there + 1)) here
      (Function.update (Function.update count here (count here + 1)) there
        (Function.update count here (count here + 1) there + 1) here - 1) =
      Function.update count there (count there + 1) := by
  by_cases same : here = there
  · subst same
    simp
  · have first : Function.update count here (count here + 1) there = count there :=
      Function.update_of_ne (Ne.symm same) ..
    rw [first, Function.update_of_ne same, Function.update_self, Nat.add_sub_cancel,
      Function.update_comm (Ne.symm same), Function.update_idem, Function.update_eq_self]

/-- What `ilock` leaves. -/
def ilocked (sb : Superblock) (t : Blocks Pid) (p : Pid) (ip : Fin NINODE) : Blocks Pid :=
  { t with
    lock := Function.update t.lock ip (some p)
    valid := Function.update t.valid ip true
    inode := Function.update t.inode ip (dinode sb t.view (t.inum ip)) }

/-- What `iunlockput` leaves. -/
def putBack (t : Blocks Pid) (p : Pid) (ip : Fin NINODE) : Blocks Pid :=
  { t with
    toTables := { t.toTables with lock := Function.update t.lock ip none }.unref p ip }

namespace Holding

variable (holding : Holding sb s ip n t)

include holding

omit [DecidableEq Pid] in
theorem referenced : 0 < t.ref ip := by
  rw [holding.ref, Function.update_self]
  exact Nat.succ_pos _

omit [DecidableEq Pid] in
/-- Entries that were in use still are. -/
theorem used (before : 0 < s.ref i) : 0 < t.ref i := by
  rw [holding.ref]
  by_cases same : i = ip
  · rw [same, Function.update_self]
    exact Nat.succ_pos _
  · rwa [Function.update_of_ne same]

omit [DecidableEq Pid] in
theorem inode_self : (ilocked sb t p ip).inode ip = dinode sb s.view n := by
  change Function.update t.inode ip (dinode sb t.view (t.inum ip)) ip = _
  rw [Function.update_self, holding.view, holding.inum_self]

omit [DecidableEq Pid] in
/-- All copies are still true. -/
theorem copies_ilocked (p : Pid) (used : 0 < t.ref i) (valid : (ilocked sb t p ip).valid i = true) :
    (ilocked sb t p ip).inode i = dinode sb t.view (t.inum i) := by
  by_cases same : i = ip
  · rw [same]
    exact Function.update_self ..
  · change Function.update t.valid ip true i = true at valid
    rw [Function.update_of_ne same] at valid
    exact (Function.update_of_ne same ..).trans (holding.settled.copies i used valid)

/-- The lock of an inode that is held is free. -/
theorem ilock_ends {post : Unit → Blocks Pid → Prop} (holds : post () (ilocked sb t p ip)) :
    (blocksSystem sb task).Ends p mayPanic post ((ilock ip).expand (body sb)) t := by
  have live := holding.live.2
  rw [← holding.view, ← holding.inum_self] at live
  apply Fs.ilock_ends holding.referenced (holding.settled.unlocked ip)
    (holding.settled.quiet _) (holding.settled.copies ip holding.referenced) live
  exact holds

omit [DecidableEq Pid] in
/-- The reference is returned to the caller. -/
theorem iunlocked (p : Pid) : Holding sb s ip n
    { ilocked sb t p ip with lock := Function.update (ilocked sb t p ip).lock ip none } where
  settled :=
    { tree := holding.settled.tree
      unlocked := fun i => by
        have lock : Function.update (Function.update t.lock ip (some p)) ip none = t.lock := by
          rw [Function.update_idem, ← holding.settled.unlocked ip, Function.update_eq_self]
        change Function.update (Function.update t.lock ip (some p)) ip none i = none
        rw [lock]
        exact holding.settled.unlocked i
      quiet := holding.settled.quiet
      copies := fun i => holding.copies_ilocked p }
  view := holding.view
  ops := holding.ops
  inum := holding.inum
  ftable := holding.ftable
  ofile := holding.ofile
  cwd := holding.cwd
  ref := holding.ref
  inum_self := holding.inum_self
  live := holding.live
  kept := holding.kept

theorem iunlock_ends {post : Unit → Blocks Pid → Prop}
    (holds : ∀ final, Holding sb s ip n final → post () final) :
    (blocksSystem sb task).Ends p mayPanic post ((iunlock ip).expand (body sb))
      (ilocked sb t p ip) := by
  have referenced : 0 < (ilocked sb t p ip).ref ip := holding.referenced
  exact Fs.iunlock_ends referenced (Function.update_self ..) (holds _ (holding.iunlocked p))

/-- The reference is given back. -/
theorem given (p : Pid) : Searched sb s { t with toTables := t.toTables.unref p ip } ∧
    (t.toTables.unref p ip).ref = s.ref := by
  have ref : (t.toTables.unref p ip).ref = s.ref := by
    change Function.update t.ref ip (t.ref ip - 1) = s.ref
    rw [holding.ref, Function.update_self, Function.update_idem, Nat.add_sub_cancel,
      Function.update_eq_self]
  refine ⟨⟨⟨holding.settled.tree, holding.settled.unlocked, holding.settled.quiet, ?_⟩,
    holding.view, holding.ops, holding.inum, holding.ftable, holding.ofile, holding.cwd⟩, ref⟩
  intro i used valid
  change 0 < (t.toTables.unref p ip).ref i at used
  rw [ref] at used
  exact holding.settled.copies i (holding.used used) valid

theorem iput_ends {post : Unit → Blocks Pid → Prop}
    (holds : ∀ final, Searched sb s final → final.ref = s.ref → post () final) :
    (blocksSystem sb task).Ends p mayPanic post ((iput ip).expand (body sb)) t := by
  apply Fs.iput_ends (holding.settled.unlocked ip)
  · intro valid unlinked
    rw [holding.settled.copies ip holding.referenced valid, holding.view,
      holding.inum_self] at unlinked
    have several := holding.kept unlinked
    rw [holding.ref, Function.update_self]
    omega
  · exact holds _ (holding.given p).1 (holding.given p).2

theorem iunlockput_ends {post : Unit → Blocks Pid → Prop}
    (holds : ∀ final, Searched sb s final → final.ref = s.ref → post () final) :
    (blocksSystem sb task).Ends p mayPanic post ((iunlockput ip).expand (body sb))
      (ilocked sb t p ip) := by
  have referenced : 0 < (ilocked sb t p ip).ref ip := holding.referenced
  apply Fs.iunlockput_ends referenced (Function.update_self ..)
  · intro _ unlinked
    rw [holding.inode_self] at unlinked
    have several := holding.kept unlinked
    change t.ref ip ≠ 1
    rw [holding.ref, Function.update_self]
    omega
  · have given := (holding.iunlocked p).given p
    exact holds _ given.1 given.2

omit [DecidableEq Pid] in
/-- The entries of the cache are in use, but for the one with the new reference. -/
theorem tooFew (full : ∀ i, 0 < t.ref i) :
    (Finset.univ.filter fun i => s.ref i = 0).card < 2 := by
  have one : (Finset.univ.filter fun i => s.ref i = 0) ⊆ {ip} := by
    intro i member
    have unused := (Finset.mem_filter.mp member).2
    by_contra other
    have used := full i
    rw [holding.ref, Function.update_of_ne (by simpa using other), unused] at used
    exact Nat.lt_irrefl 0 used
  exact Nat.lt_succ_of_le ((Finset.card_le_card one).trans_eq (Finset.card_singleton ip))

omit [DecidableEq Pid] in
/-- A directory can be searched when it is locked. -/
theorem inDir (p : Pid) (type : (dinode sb s.view n).type = T_DIR) :
    InDir sb (ilocked sb t p ip) p ip := by
  have copy : (ilocked sb t p ip).inode ip = dinode sb t.view (t.inum ip) :=
    Function.update_self ..
  have live : Allocated sb (dinode sb t.view) (t.inum ip) := by
    rw [holding.view, holding.inum_self]
    exact holding.live
  have type' : ((ilocked sb t p ip).inode ip).type = T_DIR := by
    rw [holding.inode_self]
    exact type
  constructor
  · exact holding.settled.tree.consistent
  · constructor
    · exact Function.update_self ..
    · exact Function.update_self ..
    · exact live.1
    · exact copy
    · exact Or.inr type'
    · exact holding.settled.quiet
  · exact type'
  · exact holding.referenced
  · apply holding.settled.tree.whole _ live
    rw [holding.view, holding.inum_self]
    exact type

/-- The next reference is taken, and the old one is given back. -/
theorem advance {t' : Tables Pid} {next : Fin NINODE}
    (got : Got (ilocked sb t p ip).toTables p m next t') (linkable : Linkable sb s.view m) :
    Holding sb s next m (putBack { ilocked sb t p ip with toTables := t' } p ip) := by
  have ref : (putBack { ilocked sb t p ip with toTables := t' } p ip).ref =
      Function.update s.ref next (s.ref next + 1) := by
    change Function.update t'.ref ip (t'.ref ip - 1) = _
    rw [got.ref]
    change Function.update (Function.update t.ref next (t.ref next + 1)) ip
      (Function.update t.ref next (t.ref next + 1) ip - 1) = _
    rw [holding.ref]
    exact update_move
  constructor
  · constructor
    · constructor
      · exact holding.settled.tree
      · intro i
        have lock := (holding.iunlocked p).settled.unlocked i
        change Function.update t'.lock ip none i = none
        rw [got.lock]
        exact lock
      · exact holding.settled.quiet
      · intro i used valid
        have used' : 0 < t'.ref i := by
          change 0 < Function.update t'.ref ip (t'.ref ip - 1) i at used
          rw [Function.update_apply] at used
          split at used <;> rename_i same
          · rw [same]
            omega
          · exact used
        rcases got.of_valid used' valid with ⟨before, valid, inum⟩
        change (ilocked sb t p ip).inode i = dinode sb t.view (t'.inum i)
        rw [inum]
        exact holding.copies_ilocked p before valid
    · exact holding.view
    · exact holding.ops
    · intro i used
      exact (got.inum_used (holding.used used)).trans (holding.inum i used)
    · exact got.files.1.trans holding.ftable
    · exact got.files.2.1.trans holding.ofile
    · exact got.files.2.2.trans holding.cwd
  · exact ref
  · exact got.inum_self
  · exact linkable.live
  · exact fun unlinked => absurd unlinked linkable.links

/-- Giving back the reference to a directory whose entry has been found does not free it. -/
theorem advance_ends {t' : Tables Pid} {next : Fin NINODE} {post : Unit → Blocks Pid → Prop}
    (got : Got (ilocked sb t p ip).toTables p m next t') (linkable : Linkable sb s.view m)
    (holds : ∀ final, Holding sb s next m final → post () final) :
    (blocksSystem sb task).Ends p mayPanic post ((iunlockput ip).expand (body sb))
      { ilocked sb t p ip with toTables := t' } := by
  have more : t.ref ip ≤ t'.ref ip := by
    rw [got.ref, Function.update_apply]
    split
    · rename_i same
      rw [← same]
      exact Nat.le_succ _
    · exact Nat.le_refl _
  have referenced : 0 < ({ ilocked sb t p ip with toTables := t' } : Blocks Pid).ref ip :=
    holding.referenced.trans_le more
  have locked : ({ ilocked sb t p ip with toTables := t' } : Blocks Pid).lock ip = some p := by
    change t'.lock ip = some p
    rw [got.lock]
    exact Function.update_self ..
  apply Fs.iunlockput_ends referenced locked
  · intro _ unlinked
    change ((ilocked sb t p ip).inode ip).nlink = 0 at unlinked
    rw [holding.inode_self] at unlinked
    have several := holding.kept unlinked
    change t'.ref ip ≠ 1
    have counted := holding.ref
    rw [funext_iff] at counted
    have here := counted ip
    rw [Function.update_self] at here
    omega
  · exact holds _ (holding.advance got linkable)

end Holding

/-! ## `namex` -/

omit [DecidableEq Pid] in
/-- There are no more components. -/
theorem namexLoop_none {parent : Bool} {fuel : Nat} (ends : skipelem path = none) :
    (namexLoop devsw parent fuel path name ip : Prog (Act Pid) _) =
      if parent then
        iput ip >>= fun _ => .ret none
      else
        .ret (some (ip, name)) := by
  apply namexLoop.eq_2
  intro _ _ _ _ more
  rw [ends] at more
  cases more

theorem namexLoop_last {parent : Bool} {fuel : Nat} (holding : Holding sb s ip n t)
    (ends : skipelem path = none) :
    (blocksSystem sb task).Ends p (TooFewInodes s)
      (fun result final =>
        Resolved sb s (resolve sb s.view parent n (components path)) (result.map Prod.fst) final ∧
          (parent = true → ∀ found ∈ result, (components path).getLast? = some found.2))
      ((namexLoop devsw parent fuel path name ip).expand (body sb)) t := by
  rw [namexLoop_none ends, skipelem_none.mp ends]
  cases parent with
  | true =>
      apply bind_ends
      apply holding.iput_ends
      intro final searched ref
      apply System.Ends.ret
      exact ⟨⟨rfl, searched, ref⟩, fun _ _ none => by cases none⟩
  | false =>
      apply System.Ends.ret
      exact ⟨⟨ip, rfl, holding⟩, fun parent => nomatch parent⟩

/-- The whole search from an inode on. -/
theorem namexLoop_ends {parent : Bool} {fuel : Nat} (holding : Holding sb s ip n t)
    (nul : ∀ byte ∈ path, byte ≠ 0) (many : path.length ≤ fuel) :
    (blocksSystem sb task).Ends p (TooFewInodes s)
      (fun result final =>
        Resolved sb s (resolve sb s.view parent n (components path)) (result.map Prod.fst) final ∧
          (parent = true → ∀ found ∈ result, (components path).getLast? = some found.2))
      ((namexLoop devsw parent fuel path name ip).expand (body sb)) t := by
  induction fuel generalizing path name ip n t with
  | zero =>
      have empty : path = [] := List.length_eq_zero_iff.mp (Nat.le_zero.mp many)
      subst empty
      exact namexLoop_last holding rfl
  | succ fuel ih =>
      cases next : skipelem path with
      | none => exact namexLoop_last holding next
      | some found =>
          rcases found with ⟨rest, elem⟩
          rcases skipelem_some next with ⟨first, suffixed, shorter, last⟩
          have cuts := cut_elem nul next
          rw [first, namexLoop.eq_1 devsw parent path name ip fuel rest elem next]
          apply bind_ends
          apply holding.ilock_ends
          apply System.Ends.step rfl
          change (blocksSystem sb task).Ends p _ _
            (Prog.expand _ (if ((ilocked sb t p ip).inode ip).type ≠ T_DIR then _ else _)) _
          rw [holding.inode_self, resolve]
          by_cases type : (dinode sb s.view n).type = T_DIR
          · rw [if_neg (not_not.mpr type), if_neg (not_not.mpr type)]
            by_cases stop : (parent && rest.isEmpty) = true
            · have empty : rest = [] := by simpa using (Bool.and_eq_true_iff.mp stop).2
              rw [if_pos stop, if_pos (by rw [last.mp empty]; simpa [empty] using stop)]
              apply bind_ends
              apply holding.iunlock_ends
              intro final holding'
              apply System.Ends.ret
              refine ⟨⟨ip, rfl, holding'⟩, ?_⟩
              rintro _ _ ⟨⟩
              rw [last.mp empty]
              rfl
            · rw [if_neg stop, if_neg (by simpa [← last] using stop)]
              apply bind_ends
              have slots : (ilocked sb t p ip).dir sb ip = slotsOf sb s.view n := by
                change slotsOf sb t.view (t.inum ip) = _
                rw [holding.view, holding.inum_self]
              apply dirlookup_ends (holding.inDir p type)
              · intro absent
                rw [slots, cuts] at absent
                apply bind_ends
                apply holding.iunlockput_ends
                intro final searched ref
                apply System.Ends.ret
                rw [Slots.toMap, absent]
                exact ⟨⟨rfl, searched, ref⟩, fun _ _ none => by cases none⟩
              · intro _ _ _ _ full
                exact ⟨rfl, holding.tooFew full⟩
              · intro j m next' t' found got
                rw [slots, cuts] at found
                have linkable : Linkable sb s.view m := by
                  have tree := holding.settled.tree
                  rw [holding.view] at tree
                  exact tree.entries n holding.live type elem m
                    (List.mem_of_getElem? (Slots.getElem?_of_find found))
                apply bind_ends
                apply holding.advance_ends got linkable
                intro final holding'
                have value : Slots.toMap (slotsOf sb s.view n) elem = some m := by
                  rw [Slots.toMap, found]
                  rfl
                rw [value]
                have nul' : ∀ byte ∈ rest, byte ≠ 0 :=
                  fun byte member => nul byte (suffixed.subset member)
                refine System.Ends.mono (ih holding' nul' (by omega)) (fun _ few => few) ?_
                rintro result final ⟨resolved, named⟩
                refine ⟨resolved, ?_⟩
                intro up found member
                have nonempty : components rest ≠ [] := by
                  rw [up] at stop
                  simpa [← last] using stop
                rw [List.getLast?_cons_of_ne_nil nonempty]
                exact named up found member
          · rw [if_pos type, if_pos type]
            apply bind_ends
            apply holding.iunlockput_ends
            intro final searched ref
            apply System.Ends.ret
            exact ⟨⟨rfl, searched, ref⟩, fun _ _ none => by cases none⟩

/-- Where the search begins. -/
def startOf (s : Blocks Pid) (dir : Fin NINODE) (path : List UInt8) : Nat :=
  if path.head? = some slash then
    ROOTINO
  else
    s.inum dir

/-- Look up and return the inode for a path name. -/
theorem namex_ends {parent : Bool} {dir : Fin NINODE} (settled : Settled sb s)
    (cwd : s.cwd p = some dir) (used : 0 < s.ref dir)
    (live : Allocated sb (dinode sb s.view) (s.inum dir)) (nul : ∀ byte ∈ path, byte ≠ 0) :
    (blocksSystem sb task).Ends p (TooFewInodes s)
      (fun result final =>
        Resolved sb s (resolve sb s.view parent (startOf s dir path) (components path))
          (result.map Prod.fst) final ∧
          (parent = true → ∀ found ∈ result, (components path).getLast? = some found.2))
      ((namex devsw path parent).expand (body sb)) s := by
  rw [namex, startOf]
  split
  · apply bind_ends
    apply iget_ends
    · intro _ full
      refine ⟨rfl, ?_⟩
      rw [Finset.filter_false_of_mem fun i _ => (full i).ne']
      decide
    · intro i t got
      apply namexLoop_ends _ nul (Nat.le_refl _)
      apply settled.got got settled.tree.root.live
      exact fun unlinked => absurd unlinked settled.tree.root.links
  · have effect : (blocksSystem sb task).exec (.left .cwd) p s = .done dir s := by
      simp [blocksSystem, Blocks.exec, Tables.exec, cwd, Outcome.map]
    apply System.Ends.step effect
    apply System.Ends.step rfl
    exact namexLoop_ends (settled.idup used live) nul (Nat.le_refl _)

/--
`skipelem` finds the components of a path, and reads nothing behind its NUL.  `namei` returns
the inode that the components lead to, and `nameiparent` the directory before the last one
with the name of that; they keep a reference to what they return, and no other.
-/
theorem namei_nameiparent (devsw : Devsw) {dir : Fin NINODE} (settled : Settled sb s)
    (cwd : s.cwd p = some dir) (used : 0 < s.ref dir)
    (live : Allocated sb (dinode sb s.view) (s.inum dir)) (nul : ∀ byte ∈ path, byte ≠ 0)
    (small : path.length < 2 ^ 31) :
    (∀ name : List UInt8, name.length = DIRSIZ →
      elements (path ++ [0]) (path.length + 1) 0 name = some (components path)) ∧
    (blocksSystem sb task).Ends p (TooFewInodes s)
      (Resolved sb s (follow sb s.view (startOf s dir path) (components path)))
      ((namei devsw path).expand (body sb)) s ∧
    (blocksSystem sb task).Ends p (TooFewInodes s)
      (fun result final =>
        Resolved sb s (followParent sb s.view (startOf s dir path) (components path))
          (result.map Prod.fst) final ∧
          ∀ found ∈ result, (components path).getLast? = some found.2)
      ((nameiparent devsw path).expand (body sb)) s := by
  refine ⟨?_, ?_, ?_⟩
  · intro name size
    exact elements_eq nul (Nat.zero_le _) small size (by omega)
  · apply bind_ends
    apply System.Ends.mono (namex_ends settled cwd used live nul) (fun _ few => few)
    rintro result final ⟨resolved, _⟩
    apply System.Ends.ret
    rwa [resolve_follow] at resolved
  · apply System.Ends.mono (namex_ends settled cwd used live nul) (fun _ few => few)
    rintro result final ⟨resolved, named⟩
    rw [resolve_followParent] at resolved
    exact ⟨resolved, named rfl⟩

/-! ## Searches in a small tree -/

/-- The only process is in the root and has no lock. -/
def atRoot (count : Nat) : Blocks Unit :=
  { inTree count with lock := fun _ => none }

theorem linkable_tree (positive : 0 < n) (inside : n < 52) : Linkable treeDisk tree n := by
  refine ⟨allocated_tree.mpr ⟨positive, inside⟩, ?_⟩
  rw [dinode_tree (inside.trans (by decide)), if_neg positive.ne', if_pos inside]
  split <;> decide

theorem directory_tree (live : Allocated treeDisk (dinode treeDisk tree) n)
    (type : (dinode treeDisk tree n).type = T_DIR) : n = 1 := by
  have bounds := allocated_tree.mp live
  by_contra other
  rw [dinode_tree (bounds.2.trans (by decide)), if_neg other, if_neg bounds.1.ne',
    if_pos bounds.2] at type
  exact absurd type (by decide)

theorem tree_tree : Tree treeDisk tree where
  consistent := consistent_tree
  root := linkable_tree (by decide) (by decide)
  whole n live type := by
    rw [directory_tree live type, contents_tree]
    decide
  entries n live type name m member := by
    rw [directory_tree live type, slotsOf, contents_tree, slots_tree] at member
    have bounds : 0 < m ∧ m < 52 := by
      simp only [List.mem_cons, Option.some.injEq, Prod.mk.injEq, reduceCtorEq,
        List.not_mem_nil, or_false, false_or] at member
      omega
    exact linkable_tree bounds.1 bounds.2

theorem settled_atRoot (count : Nat) : Settled treeDisk (atRoot count) where
  tree := tree_tree
  unlocked _ := rfl
  quiet _ := rfl
  copies i _ _ := by
    change (if i = firstEntry then rootDir else emptyFile) =
      dinode treeDisk tree (if i = firstEntry then 1 else i.val + 2)
    split
    · rw [dinode_tree (by decide), if_pos rfl]
    · have inside : i.val < 50 := i.isLt
      rw [dinode_tree (by omega), if_neg (by omega), if_neg (by omega), if_pos (by omega)]

theorem live_atRoot (count : Nat) :
    Allocated treeDisk (dinode treeDisk (atRoot count).view) ((atRoot count).inum firstEntry) :=
  allocated_tree.mpr ⟨Nat.one_pos, (by decide : 1 < 52)⟩

/-- The file is found, and the root for a new name. -/
theorem namei_nameiparent_tree :
    (∃ ip final, treeOnly.Completes ()
        ((namei noDevices [47, 97]).expand (body treeDisk)) (atRoot 1) (some ip) final ∧
      final.inum ip = 2) ∧
    ∃ ip final, treeOnly.Completes ()
        ((nameiparent noDevices [46, 47, 47, 98, 47]).expand (body treeDisk)) (atRoot 1)
        (some (ip, [98])) final ∧
      final.inum ip = 1 := by
  have room : ∀ message, ¬ TooFewInodes (atRoot 1) message := by
    rintro message ⟨_, few⟩
    revert few
    decide
  have file : _ ∧ treeOnly.Ends () _ _ _ _ ∧ _ :=
    namei_nameiparent noDevices (settled_atRoot 1) rfl Nat.one_pos (live_atRoot 1)
      (by simp : ∀ byte ∈ ([47, 97] : List UInt8), byte ≠ 0) (by decide)
  have directory : _ ∧ _ ∧ treeOnly.Ends () _ _ _ _ :=
    namei_nameiparent noDevices (settled_atRoot 1) rfl Nat.one_pos (live_atRoot 1)
      (by simp : ∀ byte ∈ ([46, 47, 47, 98, 47] : List UInt8), byte ≠ 0) (by decide)
  constructor
  · have target : follow treeDisk tree (startOf (atRoot 1) firstEntry [47, 97])
        (components [47, 97]) = some 2 := by
      decide +kernel
    have ends := file.2.1.mono room fun _ _ resolved => resolved
    rcases ends.completes with ⟨result, final, completes, resolved⟩
    change Resolved treeDisk (atRoot 1) (follow treeDisk tree _ _) _ _ at resolved
    rw [target] at resolved
    rcases resolved with ⟨ip, rfl, holding⟩
    exact ⟨ip, final, completes, holding.inum_self⟩
  · have target : followParent treeDisk tree (startOf (atRoot 1) firstEntry [46, 47, 47, 98, 47])
        (components [46, 47, 47, 98, 47]) = some 1 := by
      decide
    have ends := directory.2.2.mono room fun _ _ resolved => resolved
    rcases ends.completes with ⟨result, final, completes, resolved, named⟩
    change Resolved treeDisk (atRoot 1) (followParent treeDisk tree _ _) _ _ at resolved
    rw [target] at resolved
    rcases resolved with ⟨ip, found, holding⟩
    rcases Option.map_eq_some_iff.mp found with ⟨⟨ip', name⟩, rfl, rfl⟩
    have last := named _ rfl
    have name_eq : (components [46, 47, 47, 98, 47]).getLast? = some [98] := by
      decide +kernel
    rw [name_eq] at last
    cases last
    exact ⟨ip', final, completes, holding.inum_self⟩

/-- All entries of the cache are in use for other inodes. -/
theorem not_namei_nameiparent :
    ¬ ∀ (s : Blocks Unit) (dir : Fin NINODE) (path : List UInt8) (n : Nat),
      Settled treeDisk s → s.cwd () = some dir → 0 < s.ref dir →
      Allocated treeDisk (dinode treeDisk s.view) (s.inum dir) → (∀ byte ∈ path, byte ≠ 0) →
      follow treeDisk s.view (startOf s dir path) (components path) = some n →
      ∃ ip final, treeOnly.Completes () ((namei noDevices path).expand (body treeDisk)) s
          (some ip) final ∧ final.inum ip = n := by
  intro always
  have target : follow treeDisk tree (startOf (atRoot 50) firstEntry [97]) (components [97]) =
      some 2 := by
    decide
  rcases always (atRoot 50) firstEntry [97] 2 (settled_atRoot 50) rfl (by decide)
    (live_atRoot 50) (by simp) target with ⟨ip, final, completes, _⟩
  have stops : (treeOnly.run () ((namei noDevices [97]).expand (body treeDisk))
      (atRoot 50)).isNone = true := by
    decide +kernel
  rw [completes.run_eq] at stops
  cases stops

end PiKernel.Fs
