import PiKernel.Fs.Directory
import PiKernel.Fs.References

/-!
# `dirlookup` and `dirlink`

The two functions on a locked directory, from a consistent volume and with no other process
running.  The first finds an entry in the finite map that the directory stands for, and the
second adds one.
-/

namespace PiKernel.Fs

open PiKernel.Bytes
open PiKernel.Conc

variable {Pid : Type} [DecidableEq Pid] {sb : Superblock}
  {task : Tables Pid → Pid → Prog (Act Pid) Unit → Prop} {p : Pid} {mayPanic : String → Prop}
  {s : Blocks Pid} {dp ip : Fin NINODE} {devsw : Devsw} {name : List UInt8}
  {inum k off count : Nat}

/-- The slots of the directory that an entry of the cache is for. -/
def Blocks.dir (sb : Superblock) (s : Blocks Pid) (dp : Fin NINODE) :
    List (Slot (List UInt8) Nat) :=
  dirSlots (contents sb s.view (s.inum dp))

/-- The process has locked a directory, to which it has a reference. -/
structure InDir (sb : Superblock) (s : Blocks Pid) (p : Pid) (dp : Fin NINODE) : Prop where
  consistent : Consistent sb s.view
  locked : Locked sb s p dp
  type : (s.inode dp).type = T_DIR
  referenced : 0 < s.ref dp
  whole : DIRENT ∣ (contents sb s.view (s.inum dp)).length

namespace InDir

omit [DecidableEq Pid] in
theorem size (dir : InDir sb s p dp) :
    (s.inode dp).size.toNat = (contents sb s.view (s.inum dp)).length :=
  dir.locked.live.2.symm

omit [DecidableEq Pid] in
theorem entries (dir : InDir sb s p dp) :
    Fs.entries (s.inode dp).size.toNat = (s.dir sb dp).length := by
  rw [dir.size, entries_eq dir.whole, Blocks.dir, length_dirSlots]

omit [DecidableEq Pid] in
theorem inside (inside : k < (s.dir sb dp).length) :
    k * DIRENT + DIRENT ≤ (contents sb s.view (s.inum dp)).length := by
  rw [Blocks.dir, length_dirSlots] at inside
  rw [← Nat.succ_mul]
  exact (Nat.mul_le_mul_right DIRENT inside).trans (Nat.div_mul_le_self ..)

/-- Reading an entry. -/
theorem readi_ends {post : Option (List UInt8) → Blocks Pid → Prop} (dir : InDir sb s p dp)
    (inside : k < (s.dir sb dp).length)
    (holds : post
      (some (((contents sb s.view (s.inum dp)).drop (k * DIRENT)).take DIRENT)) s) :
    (blocksSystem sb task).Ends p mayPanic post
      ((readi devsw dp (k * DIRENT) DIRENT).expand (body sb)) s := by
  have last := InDir.inside inside
  have small : (contents sb s.view (s.inum dp)).length < 2 ^ 32 := by
    rw [← dir.size]
    exact (s.inode dp).size.toNat_lt
  apply Fs.readi_ends dir.consistent dir.locked
  rw [if_neg (by omega)]
  exact holds

end InDir

/-! ## `dirlookup` -/

theorem dirlookupLoop_ends {post : Option (Fin NINODE × Nat) → Blocks Pid → Prop}
    (dir : InDir sb s p dp) (all : k + count = (s.dir sb dp).length)
    (absent : Slots.find (cut name) ((s.dir sb dp).drop k) = none → post none s)
    (full : ∀ j inum, Slots.find (cut name) ((s.dir sb dp).drop k) = some (j, inum) →
      s.find inum = none → (∀ i, 0 < s.ref i) → mayPanic noInodes)
    (found : ∀ j inum ip t, Slots.find (cut name) ((s.dir sb dp).drop k) = some (j, inum) →
      Got s.toTables p inum ip t →
        post (some (ip, (k + j) * DIRENT)) { s with toTables := t }) :
    (blocksSystem sb task).Ends p mayPanic post
      ((dirlookupLoop devsw dp name count (k * DIRENT)).expand (body sb)) s := by
  induction count generalizing k with
  | zero =>
      apply System.Ends.ret
      apply absent
      have past : (s.dir sb dp).length ≤ k := Nat.le_of_eq all.symm
      rw [List.drop_eq_nil_of_le past]
      rfl
  | succ count ih =>
      have inside : k < (s.dir sb dp).length := by omega
      have inside' : k < (contents sb s.view (s.inum dp)).length / DIRENT := by
        rwa [Blocks.dir, length_dirSlots] at inside
      have drop : (s.dir sb dp).drop k =
          (entryAt (contents sb s.view (s.inum dp)) k).slot :: (s.dir sb dp).drop (k + 1) :=
        drop_dirSlots inside'
      rw [drop] at absent full found
      apply bind_ends
      apply dir.readi_ends inside
      have whole := length_entry dir.whole inside'
      change (blocksSystem sb task).Ends p _ _
        (Prog.expand _ (if List.length _ ≠ DIRENT then _ else _)) s
      rw [if_neg (not_not.mpr whole)]
      generalize entry : entryAt (contents sb s.view (s.inum dp)) k = de at absent full found
      have decoded : Dirent.decode
          (((contents sb s.view (s.inum dp)).drop (k * DIRENT)).take DIRENT) = de := entry
      simp only [decoded]
      -- The entry is not the one that is looked for.
      have later (shift : Slots.find (cut name) (de.slot :: (s.dir sb dp).drop (k + 1)) =
          (Slots.find (cut name) ((s.dir sb dp).drop (k + 1))).map
            fun found => (found.1 + 1, found.2)) :
          (blocksSystem sb task).Ends p mayPanic post
            ((dirlookupLoop devsw dp name count (k * DIRENT + DIRENT)).expand (body sb)) s := by
        rw [shift] at absent full found
        rw [← Nat.succ_mul]
        apply ih (by omega)
        · intro missed
          apply absent
          rw [missed]
          rfl
        · intro j inum here
          apply full (j + 1) inum
          rw [here]
          rfl
        · intro j inum ip t here got
          have place : k + 1 + j = k + (j + 1) := by omega
          rw [place]
          apply found (j + 1) inum ip t
          · rw [here]
            rfl
          · exact got
      by_cases unused : de.inum = 0
      · rw [if_pos unused]
        apply later
        rw [Dirent.slot, if_pos unused, Slots.find_free]
      · rw [if_neg unused]
        have slot : de.slot = some (cut de.name, de.inum) := if_neg unused
        by_cases same : sameName name de.name = true
        · rw [if_pos same]
          have here : Slots.find (cut name) (de.slot :: (s.dir sb dp).drop (k + 1)) =
              some (0, de.inum) := by
            rw [slot, sameName_iff.mp same, Slots.find_same]
          apply bind_ends
          apply iget_ends
          · exact full 0 de.inum here
          · intro i t got
            exact System.Ends.ret (found 0 de.inum i t here got)
        · rw [if_neg same]
          apply later
          rw [slot, Slots.find_other]
          intro equal
          exact same (sameName_iff.mpr equal.symm)

/-- Look for a directory entry in a directory. -/
theorem dirlookup_ends {post : Option (Fin NINODE × Nat) → Blocks Pid → Prop}
    (dir : InDir sb s p dp)
    (absent : Slots.find (cut name) (s.dir sb dp) = none → post none s)
    (full : ∀ j inum, Slots.find (cut name) (s.dir sb dp) = some (j, inum) →
      s.find inum = none → (∀ i, 0 < s.ref i) → mayPanic noInodes)
    (found : ∀ j inum ip t, Slots.find (cut name) (s.dir sb dp) = some (j, inum) →
      Got s.toTables p inum ip t → post (some (ip, j * DIRENT)) { s with toTables := t }) :
    (blocksSystem sb task).Ends p mayPanic post
      ((dirlookup devsw dp name).expand (body sb)) s := by
  apply System.Ends.step rfl
  change (blocksSystem sb task).Ends p _ _
    (Prog.expand _ (if (s.inode dp).type ≠ T_DIR then _ else
      dirlookupLoop devsw dp name (Fs.entries (s.inode dp).size.toNat) 0)) s
  rw [if_neg (not_not.mpr dir.type), dir.entries, ← Nat.zero_mul DIRENT]
  apply dirlookupLoop_ends dir (Nat.zero_add _)
  · exact absent
  · exact full
  · simpa only [Nat.zero_add, List.drop_zero] using found

/-! ## `dirlink` -/

/-- The loop looks for the first free slot. -/
theorem dirlinkLoop_ends {post : Nat → Blocks Pid → Prop}
    (dir : InDir sb s p dp) (all : k + count = (s.dir sb dp).length)
    (holds : post ((k + Slots.vacant ((s.dir sb dp).drop k)) * DIRENT) s) :
    (blocksSystem sb task).Ends p mayPanic post
      ((dirlinkLoop devsw dp count (k * DIRENT)).expand (body sb)) s := by
  induction count generalizing k with
  | zero =>
      apply System.Ends.ret
      have past : (s.dir sb dp).length ≤ k := Nat.le_of_eq all.symm
      rw [List.drop_eq_nil_of_le past] at holds
      exact holds
  | succ count ih =>
      have inside : k < (s.dir sb dp).length := by omega
      have inside' : k < (contents sb s.view (s.inum dp)).length / DIRENT := by
        rwa [Blocks.dir, length_dirSlots] at inside
      have drop : (s.dir sb dp).drop k =
          (entryAt (contents sb s.view (s.inum dp)) k).slot :: (s.dir sb dp).drop (k + 1) :=
        drop_dirSlots inside'
      rw [drop] at holds
      apply bind_ends
      apply dir.readi_ends inside
      have whole := length_entry dir.whole inside'
      change (blocksSystem sb task).Ends p _ _
        (Prog.expand _ (if List.length _ ≠ DIRENT then _ else
          if (entryAt (contents sb s.view (s.inum dp)) k).inum = 0 then _ else _)) s
      rw [if_neg (not_not.mpr whole)]
      generalize entryAt (contents sb s.view (s.inum dp)) k = de at holds
      by_cases unused : de.inum = 0
      · rw [if_pos unused]
        apply System.Ends.ret
        have slot : de.slot = none := if_pos unused
        rw [slot] at holds
        exact holds
      · rw [if_neg unused, ← Nat.succ_mul]
        have slot : de.slot = some (cut de.name, de.inum) := if_neg unused
        rw [slot] at holds
        apply ih (by omega)
        have place : k + 1 + Slots.vacant ((s.dir sb dp).drop (k + 1)) =
            k + (Slots.vacant ((s.dir sb dp).drop (k + 1)) + 1) := by omega
        rw [place]
        exact holds

/-- The offset of the first free slot, or of the end of the directory. -/
def Blocks.vacancy (sb : Superblock) (s : Blocks Pid) (dp : Fin NINODE) : Nat :=
  Slots.vacant (s.dir sb dp) * DIRENT

/-- No new entry fits into the directory, the volume or the log. -/
def Crowded (sb : Superblock) (s : Blocks Pid) (dp : Fin NINODE) (message : String) : Prop :=
  message = "dirlink" ∧ MAXFILE * BSIZE < s.vacancy sb dp + DIRENT ∨
    Short sb s dp (s.vacancy sb dp) DIRENT message

/-- The directory has one more entry, and no other inode has changed. -/
structure Linked (sb : Superblock) (s : Blocks Pid) (p : Pid) (dp : Fin NINODE)
    (name : List UInt8) (inum : Nat) (final : Blocks Pid) : Prop where
  dir : InDir sb final p dp
  slots : final.dir sb dp = Slots.put (s.dir sb dp) (cut name) inum
  tables : final.toTables = s.toTables
  ops : ∃ bs, final.toOps = s.toOps.absorbs p bs
  copies : ∀ i, i ≠ dp → final.inode i = s.inode i
  links : (final.inode dp).nlink = (s.inode dp).nlink
  others : ∀ j, j < sb.ninodes → j ≠ s.inum dp →
    dinode sb final.view j = dinode sb s.view j ∧
      ((dinode sb s.view j).type ≠ 0 → contents sb final.view j = contents sb s.view j)

/-- The write of an entry with a new name. -/
theorem InDir.linked {view : Nat → Block} {bs : List Nat} (dir : InDir sb s p dp)
    (positive : 0 < inum) (fits : inum < 2 ^ 16)
    (rewritten : Rewritten sb s.view (s.inum dp) (s.vacancy sb dp)
      (Dirent.bytes { inum := inum, name := name }) view) :
    Linked sb s p dp name inum
      { s with
        view := view
        inode := Function.update s.inode dp (dinode sb view (s.inum dp))
        toOps := s.toOps.absorbs p bs } := by
  have inside : Slots.vacant (s.dir sb dp) ≤
      (contents sb s.view (s.inum dp)).length / DIRENT := by
    rw [← length_dirSlots]
    exact Slots.vacant_le
  have length : (Dirent.bytes { inum := inum, name := name }).length = DIRENT :=
    length_bytes_dirent
  have slots : dirSlots (contents sb view (s.inum dp)) =
      Slots.put (s.dir sb dp) (cut name) inum := by
    rw [rewritten.contents, Blocks.vacancy, dirSlots_write dir.whole inside length,
      decode_bytes positive fits]
    rfl
  constructor
  · constructor
    · exact rewritten.consistent
    · exact dir.locked.rewritten rewritten
    · have type := congrArg Meta.type rewritten.fields
      simp only [Function.update_self, type, ← dir.locked.copy]
      exact dir.type
    · exact dir.referenced
    · change DIRENT ∣ (contents sb view (s.inum dp)).length
      rw [rewritten.contents, Blocks.vacancy, length_write dir.whole inside length]
      exact Nat.dvd_mul_left ..
  · exact slots
  · rfl
  · exact ⟨bs, rfl⟩
  · exact fun i other => Function.update_of_ne other ..
  · have links := congrArg Meta.nlink rewritten.fields
    simp only [Function.update_self, links, ← dir.locked.copy]
  · exact rewritten.others

/-- Write a new directory entry (name, inum) into the directory dp. -/
theorem dirlink_ends {post : Bool → Blocks Pid → Prop} (dir : InDir sb s p dp)
    (positive : 0 < inum) (fits : inum < 2 ^ 16)
    (idle : ∀ i, s.ref i = 0 → s.lock i = none)
    (full : ∀ j n, Slots.find (cut name) (s.dir sb dp) = some (j, n) →
      s.find n = none → (∀ i, 0 < s.ref i) → mayPanic noInodes)
    (unlocked : ∀ j n i, Slots.find (cut name) (s.dir sb dp) = some (j, n) →
      s.find n = some i → s.lock i = none)
    (present : ∀ j n ip t, Slots.find (cut name) (s.dir sb dp) = some (j, n) →
      Got s.toTables p n ip t → post false { s with toTables := t.unref p ip })
    (crowded : ∀ message, Slots.find (cut name) (s.dir sb dp) = none →
      Crowded sb s dp message → mayPanic message)
    (added : ∀ final, Slots.find (cut name) (s.dir sb dp) = none →
      Linked sb s p dp name inum final → post true final) :
    (blocksSystem sb task).Ends p mayPanic post
      ((dirlink devsw dp name inum).expand (body sb)) s := by
  apply bind_ends
  apply dirlookup_ends dir
  · intro absent
    apply System.Ends.step rfl
    change (blocksSystem sb task).Ends p _ _ (Prog.expand _
      (dirlinkLoop devsw dp (Fs.entries (s.inode dp).size.toNat) 0 >>= _)) s
    rw [dir.entries, ← Nat.zero_mul DIRENT]
    apply bind_ends
    apply dirlinkLoop_ends dir (Nat.zero_add _)
    rw [List.drop_zero, Nat.zero_add, Nat.mod_eq_of_lt fits]
    have length : (Dirent.bytes { inum := inum, name := name }).length = DIRENT :=
      length_bytes_dirent
    apply bind_ends
    apply writei_ends dir.consistent dir.locked
    · intro message short
      rw [length] at short
      exact crowded message absent (Or.inr short)
    · intro refused
      rw [length] at refused
      have inside : Slots.vacant (s.dir sb dp) * DIRENT ≤
          (contents sb s.view (s.inum dp)).length := by
        have bound : Slots.vacant (s.dir sb dp) ≤
            (contents sb s.view (s.inum dp)).length / DIRENT := by
          rw [← length_dirSlots]
          exact Slots.vacant_le
        exact (Nat.mul_le_mul_right DIRENT bound).trans (Nat.div_mul_le_self ..)
      have small : (contents sb s.view (s.inum dp)).length < 2 ^ 32 := by
        rw [← dir.size]
        exact (s.inode dp).size.toNat_lt
      apply System.Ends.panic
      apply crowded _ absent
      refine Or.inl ⟨rfl, ?_⟩
      rcases refused with beyond | wraps | large
      · omega
      · simp only [DIRENT, DIRSIZ] at *
        omega
      · exact large
    · intro view bs _ rewritten
      rw [length]
      exact System.Ends.ret (added _ absent (dir.linked positive fits rewritten))
  · exact full
  · intro j n ip t here got
    have free : t.lock ip = none := by
      rw [got.lock]
      cases got with
      | found cached => exact unlocked j n ip here cached
      | recycled _ spare => exact idle ip (Tables.of_empty spare)
    apply bind_ends
    apply iput_ends free
    · intro valid _ last
      have several := got.kept valid
      change t.ref ip = 1 at last
      omega
    · exact System.Ends.ret (present j n ip t here got)

/-! ## The directory as a map -/

/-- The inode cache has no entry for the inode, and no unused one. -/
def Exhausted (t : Tables Pid) (inum : Nat) (message : String) : Prop :=
  message = noInodes ∧ t.find inum = none ∧ ∀ i, 0 < t.ref i

/-- A reference that has been taken and given back leaves the directory locked. -/
theorem InDir.unref {t : Tables Pid} (dir : InDir sb s p dp) (got : Got s.toTables p inum ip t) :
    InDir sb { s with toTables := t.unref p ip } p dp := by
  have inum : t.inum dp = s.inum dp := got.inum_used dir.referenced
  constructor
  · exact dir.consistent
  · constructor
    · change t.lock dp = some p
      rw [got.lock]
      exact dir.locked.mine
    · change t.valid dp = true
      rw [got.valid_used dir.referenced]
      exact dir.locked.valid
    · change t.inum dp < sb.ninodes
      rw [inum]
      exact dir.locked.inside
    · change s.inode dp = dinode sb s.view (t.inum dp)
      rw [inum]
      exact dir.locked.copy
    · exact dir.locked.type
    · exact dir.locked.quiet
  · exact dir.type
  · change 0 < (t.unref p ip).ref dp
    rw [got.ref_unref]
    exact dir.referenced
  · change DIRENT ∣ (contents sb s.view (t.inum dp)).length
    rw [inum]
    exact dir.whole

/--
`dirlookup` returns the inode of the entry with a name and its offset, if there is one.
`dirlink` refuses a name that is there, and leaves everything as it is, provided that no
process has locked the inode of the entry; another name it adds to the map.
-/
theorem dirlookup_dirlink (devsw : Devsw) (name : List UInt8) (dir : InDir sb s p dp)
    (distinct : Slots.Distinct (s.dir sb dp))
    (idle : ∀ i, s.ref i = 0 → s.lock i = none) (positive : 0 < inum) (fits : inum < 2 ^ 16) :
    (∀ j n, (s.dir sb dp)[j]? = some (some (cut name, n)) →
      (blocksSystem sb task).Ends p (Exhausted s.toTables n)
        (fun result final => ∃ ip, result = some (ip, j * DIRENT) ∧
          Got s.toTables p n ip final.toTables ∧ final = { s with toTables := final.toTables })
        ((dirlookup devsw dp name).expand (body sb)) s ∧
      ((∀ i, s.find n = some i → s.lock i = none) →
        (blocksSystem sb task).Ends p (Exhausted s.toTables n)
          (fun result final => result = false ∧ final.view = s.view ∧ final.ref = s.ref ∧
            final.inode = s.inode ∧ InDir sb final p dp)
          ((dirlink devsw dp name inum).expand (body sb)) s)) ∧
    ((∀ n, some (cut name, n) ∉ s.dir sb dp) →
      (blocksSystem sb task).Completes p ((dirlookup devsw dp name).expand (body sb)) s none s ∧
      (blocksSystem sb task).Ends p (Crowded sb s dp)
        (fun result final => result = true ∧ Linked sb s p dp name inum final ∧
          Slots.Distinct (final.dir sb dp) ∧
          Slots.toMap (final.dir sb dp) =
            Function.update (Slots.toMap (s.dir sb dp)) (cut name) (some inum))
        ((dirlink devsw dp name inum).expand (body sb)) s) := by
  constructor
  · intro j n slot
    have here : Slots.find (cut name) (s.dir sb dp) = some (j, n) :=
      (Slots.find_iff distinct).mpr slot
    constructor
    · apply dirlookup_ends dir
      · rw [here]
        exact fun absent => nomatch absent
      · rintro _ _ found
        rw [here] at found
        cases found
        exact fun unknown full => ⟨rfl, unknown, full⟩
      · rintro _ _ ip t found got
        rw [here] at found
        cases found
        exact ⟨ip, rfl, got, rfl⟩
    · intro unlocked
      apply dirlink_ends dir positive fits idle
      · rintro _ _ found
        rw [here] at found
        cases found
        exact fun unknown full => ⟨rfl, unknown, full⟩
      · rintro _ _ i found
        rw [here] at found
        cases found
        exact unlocked i
      · rintro _ _ ip t _ got
        exact ⟨rfl, rfl, got.ref_unref, rfl, dir.unref got⟩
      · rw [here]
        exact fun _ absent => nomatch absent
      · rw [here]
        exact fun _ absent => nomatch absent
  · intro missing
    have absent : Slots.find (cut name) (s.dir sb dp) = none :=
      Slots.find_eq_none.mpr missing
    constructor
    · have ends : (blocksSystem sb task).Ends p (fun _ => False)
          (fun result final => result = none ∧ final = s)
          ((dirlookup devsw dp name).expand (body sb)) s := by
        apply dirlookup_ends dir
        · exact fun _ => ⟨rfl, rfl⟩
        · rw [absent]
          exact fun _ _ found => nomatch found
        · rw [absent]
          exact fun _ _ _ _ found => nomatch found
      rcases ends.completes with ⟨result, final, completes, rfl, rfl⟩
      exact completes
    · apply dirlink_ends dir positive fits idle
      · rw [absent]
        exact fun _ _ found => nomatch found
      · rw [absent]
        exact fun _ _ _ found => nomatch found
      · rw [absent]
        exact fun _ _ _ _ found => nomatch found
      · exact fun _ _ crowded => crowded
      · intro final _ linked
        refine ⟨rfl, linked, ?_⟩
        rw [linked.slots]
        refine ⟨distinct.put absent, ?_⟩
        exact Slots.toMap_put (Option.map_eq_none_iff.mpr absent)

/-! ## A volume with a directory -/

/-- The inodes are in the blocks from 32 on, the bitmap is in block 39. -/
def treeDisk : Superblock where
  size := 128
  nblocks := 88
  ninodes := 56
  nlog := 30
  logstart := 2
  inodestart := 32
  bmapstart := 39

/-- The root, whose block is the first data block. -/
def rootDir : Dinode where
  type := T_DIR
  major := 0
  minor := 0
  nlink := 1
  size := 64
  addrs j := if j = 0 then 40 else 0

def emptyFile : Dinode :=
  { Dinode.fresh T_FILE with nlink := 1 }

/-- A block of inodes, the first of which are files. -/
def emptyFiles : Nat → Block
  | 0 => zeroBlock
  | count + 1 => Dinode.write (emptyFiles count) count emptyFile

/-- The root has entries for itself, a free slot, and an entry for a file. -/
def rootBytes : List UInt8 :=
  Dirent.bytes { inum := 1, name := [46] } ++ Dirent.bytes { inum := 1, name := [46, 46] } ++
    List.replicate DIRENT 0 ++ Dirent.bytes { inum := 2, name := [97] }

/-- The inodes from 2 up to 51 are files, and those behind are free. -/
def tree (b : Nat) : Block :=
  if b = 32 then Dinode.write (Dinode.write (emptyFiles IPB) 0 (Dinode.fresh 0)) 1 rootDir
  else if 32 < b ∧ b < 38 then emptyFiles IPB
  else if b = 38 then emptyFiles 4
  else if b = 39 then fun i => if i.val < 5 then 255 else if i.val = 5 then 1 else 0
  else if b = 40 then fun i => rootBytes.getD i.val 0
  else zeroBlock

/-- The only process has locked the root, and so many entries of the cache are in use. -/
def inTree (count : Nat) : Blocks Unit where
  inum i := if i = firstEntry then 1 else i.val + 2
  ref i := if i.val < count then 1 else 0
  valid _ := true
  lock i := if i = firstEntry then some () else none
  ftable _ :=
    { type := .FD_NONE, ref := 0, readable := false, writable := false, ip := none, off := 0 }
  ofile _ _ := none
  cwd _ := some firstEntry
  born _ := true
  hold _ i := if i.val < count then 1 else 0
  fhold _ _ := 0
  frees _ := false
  log :=
    { start := 2
      size := 30
      outstanding := 1
      committing := false
      lh := { n := 0, block := fun i => 40 + i } }
  asleep _ := false
  current _ := some ∅
  finished := []
  view := tree
  holder _ := none
  inode i := if i = firstEntry then rootDir else emptyFile

theorem read_emptyFiles {count k : Nat} (below : k < count) (inside : count ≤ IPB) :
    Dinode.read (emptyFiles count) k = emptyFile := by
  induction count with
  | zero => exact absurd below (Nat.not_lt_zero k)
  | succ count ih =>
      rcases Nat.lt_succ_iff_lt_or_eq.mp below with earlier | rfl
      · rw [emptyFiles, Dinode.read_write_other earlier.ne]
        exact ih earlier (Nat.le_of_succ_le inside)
      · exact Dinode.read_write_same inside

theorem read_emptyFiles_free {count k : Nat} (free : count ≤ k) :
    Dinode.read (emptyFiles count) k = Dinode.read zeroBlock k := by
  induction count with
  | zero => rfl
  | succ count ih =>
      rw [emptyFiles, Dinode.read_write_other (Nat.ne_of_gt free)]
      exact ih (Nat.le_of_succ_le free)

theorem dinode_tree {inum : Nat} (inside : inum < 56) :
    dinode treeDisk tree inum =
      if inum = 1 then rootDir else if inum = 0 then Dinode.fresh 0
      else if inum < 52 then emptyFile else Dinode.read zeroBlock (inum % IPB) := by
  have place : inum % IPB < IPB := Nat.mod_lt _ (by decide)
  rw [dinode]
  rcases Nat.lt_or_ge inum IPB with first | later
  · have row : treeDisk.IBLOCK inum = 32 := by
      rw [Superblock.IBLOCK, Nat.div_eq_of_lt first]
      rfl
    have early : inum < 52 := first.trans (by decide)
    rw [row, Nat.mod_eq_of_lt first, if_pos early]
    change Dinode.read
      (Dinode.write (Dinode.write (emptyFiles IPB) 0 (Dinode.fresh 0)) 1 rootDir) inum = _
    split <;> rename_i root
    · rw [root, Dinode.read_write_same (by decide)]
    · rw [Dinode.read_write_other root]
      split <;> rename_i unused
      · rw [unused, Dinode.read_write_same (by decide)]
      · rw [Dinode.read_write_other unused]
        exact read_emptyFiles first (Nat.le_refl IPB)
  · have other : inum ≠ 1 ∧ inum ≠ 0 := by
      simp only [IPB] at later
      omega
    rw [if_neg other.1, if_neg other.2]
    rcases Nat.lt_or_ge inum 48 with full | last
    · have row : tree (treeDisk.IBLOCK inum) = emptyFiles IPB := by
        have bounds : 32 < treeDisk.IBLOCK inum ∧ treeDisk.IBLOCK inum < 38 := by
          simp only [Superblock.IBLOCK, treeDisk, IPB] at later ⊢
          omega
        rw [tree, if_neg (by omega), if_pos bounds]
      rw [row, if_pos (by omega)]
      exact read_emptyFiles place (Nat.le_refl IPB)
    · have row : tree (treeDisk.IBLOCK inum) = emptyFiles 4 := by
        have last : treeDisk.IBLOCK inum = 38 := by
          simp only [Superblock.IBLOCK, treeDisk, IPB]
          omega
        rw [last]
        rfl
      rw [row]
      split
      · apply read_emptyFiles
        · simp only [IPB]
          omega
        · decide
      · apply read_emptyFiles_free
        simp only [IPB]
        omega

theorem allocated_tree {inum : Nat} :
    Allocated treeDisk (dinode treeDisk tree) inum ↔ 0 < inum ∧ inum < 52 := by
  constructor
  · rintro ⟨inside, type⟩
    rw [dinode_tree inside] at type
    constructor
    · apply Nat.pos_of_ne_zero
      rintro rfl
      exact type rfl
    · by_contra late
      rw [if_neg (by omega), if_neg (by omega), if_neg late] at type
      exact type (by simp [Dinode.read, readLE_zeroBlock])
  · rintro ⟨positive, inside⟩
    have below : inum < 56 := inside.trans (by decide)
    refine ⟨below, ?_⟩
    rw [dinode_tree below, if_neg positive.ne', if_pos inside, apply_ite Dinode.toMeta]
    split <;> decide

theorem used_tree : ∀ b, b < 128 → used treeDisk tree b = decide (b ≤ 40) := by
  decide

theorem consistent_tree : Consistent treeDisk tree := by
  constructor
  · constructor
    · decide
    · decide
    · intro b below
      simp only [Superblock.BBLOCK, Superblock.datastart, treeDisk, BPB, BSIZE] at below ⊢
      omega
    · decide
  · refine ⟨fun i => if i = 1 then {40} else ∅, ?_⟩
    apply Owned.single
    · rw [counts, dinode_tree (by decide), if_pos rfl]
      exact Laid.single (a := 40) rfl (by decide)
    · exact allocated_tree.mpr (by decide)
    · intro i other live
      have bounds := allocated_tree.mp live
      rw [counts, dinode_tree (bounds.2.trans (by decide)), if_neg other, if_neg bounds.1.ne',
        if_pos bounds.2]
      have empty : Laid (Dinode.fresh T_FILE) tree ∅ 0 := Laid.empty
      exact empty.of_addrs rfl
    · decide
    · intro b below
      rw [used_tree b below, decide_eq_true_eq]
      simp only [Superblock.datastart, treeDisk]
      omega

theorem contents_tree : contents treeDisk tree 1 = rootBytes := by
  rw [contents, dinode_tree (by decide), if_pos rfl]
  rfl

theorem slots_tree : dirSlots rootBytes =
    [some ([46], 1), some ([46, 46], 1), none, some ([97], 2)] :=
  rfl

theorem inDir_tree {count : Nat} (positive : 0 < count) :
    InDir treeDisk (inTree count) () firstEntry where
  consistent := consistent_tree
  locked :=
    { mine := rfl
      valid := rfl
      inside := (by decide : 1 < 56)
      copy := ((dinode_tree (by decide)).trans (if_pos rfl)).symm
      type := Or.inr rfl
      quiet := fun _ => rfl }
  type := rfl
  referenced := by
    change 0 < if 0 < count then 1 else 0
    rw [if_pos positive]
    exact Nat.one_pos
  whole := by
    change DIRENT ∣ (contents treeDisk tree 1).length
    rw [contents_tree]
    decide

/-- The entries of the root, which have different names. -/
theorem dir_tree {count : Nat} : (inTree count).dir treeDisk firstEntry =
    [some ([46], 1), some ([46, 46], 1), none, some ([97], 2)] := by
  change dirSlots (contents treeDisk tree 1) = _
  rw [contents_tree, slots_tree]

def treeOnly : System (Low Unit) Unit (Blocks Unit) :=
  blocksSystem treeDisk fun _ _ _ => True

/-- The file is found behind the free slot, which a new entry fills. -/
theorem dirlookup_dirlink_tree :
    (∃ ip final, treeOnly.Completes ()
        ((dirlookup noDevices firstEntry [97]).expand (body treeDisk)) (inTree 1)
        (some (ip, 48)) final ∧ final.inum ip = 2) ∧
    ∃ final, treeOnly.Completes ()
        ((dirlink noDevices firstEntry [98] 7).expand (body treeDisk)) (inTree 1) true final ∧
      final.dir treeDisk firstEntry =
        [some ([46], 1), some ([46, 46], 1), some ([98], 7), some ([97], 2)] := by
  have distinct : Slots.Distinct ((inTree 1).dir treeDisk firstEntry) := by
    rw [dir_tree]
    decide
  have idle : ∀ i, (inTree 1).ref i = 0 → (inTree 1).lock i = none := by decide
  have found : (∀ _ _, _ → treeOnly.Ends () _ _ _ _ ∧ _) ∧ _ :=
    dirlookup_dirlink noDevices [97] (inDir_tree Nat.one_pos) distinct idle
      (by decide : 0 < 7) (by decide)
  have added : _ ∧ (_ → _ ∧ treeOnly.Ends () _ _ _ _) :=
    dirlookup_dirlink noDevices [98] (inDir_tree Nat.one_pos) distinct idle
      (by decide : 0 < 7) (by decide)
  rw [dir_tree] at found added
  constructor
  · have ends := (found.1 3 2 rfl).1.mono (fun message exhausted =>
      Nat.lt_irrefl 0 (exhausted.2.2 ⟨1, by decide⟩)) fun _ _ holds => holds
    rcases ends.completes with ⟨_, final, completes, ip, rfl, got, _⟩
    exact ⟨ip, final, completes, got.inum_self⟩
  · have room : ∀ message, ¬ Crowded treeDisk (inTree 1) firstEntry message := by
      have offset : (inTree 1).vacancy treeDisk firstEntry = 32 := by
        rw [Blocks.vacancy, dir_tree]
        rfl
      rintro message (⟨_, large⟩ | ⟨_, _, ⟨_, short⟩ | ⟨_, short⟩⟩)
      · rw [offset] at large
        exact absurd large (by decide)
      · rw [offset] at short
        exact absurd short (Nat.not_lt.mpr (Nat.zero_le _))
      · rw [offset] at short
        exact absurd short (by decide)
    have absent : ∀ n, some (cut [98], n) ∉
        [some ([46], 1), some ([46, 46], 1), none, some ([97], 2)] := by
      intro n
      simp [cut, DIRSIZ]
    have ends := (added.2 absent).2.mono (fun message crowded => room message crowded)
      fun _ _ holds => holds
    rcases ends.completes with ⟨_, final, completes, rfl, linked, _⟩
    refine ⟨final, completes, ?_⟩
    rw [linked.slots, dir_tree]
    rfl

/-- All entries of the cache are in use for other inodes. -/
theorem not_dirlookup_dirlink :
    ¬ ∀ (s : Blocks Unit) (dp : Fin NINODE) (name : List UInt8) (j n : Nat),
      InDir treeDisk s () dp → Slots.Distinct (s.dir treeDisk dp) →
      (s.dir treeDisk dp)[j]? = some (some (cut name, n)) →
      ∃ ip final, treeOnly.Completes ()
          ((dirlookup noDevices dp name).expand (body treeDisk)) s (some (ip, j * DIRENT)) final ∧
        final.inum ip = n := by
  intro always
  have here : ((inTree 50).dir treeDisk firstEntry)[3]? = some (some (cut [97], 2)) := by
    rw [dir_tree]
    rfl
  have distinct : Slots.Distinct ((inTree 50).dir treeDisk firstEntry) := by
    rw [dir_tree]
    decide
  rcases always (inTree 50) firstEntry [97] 3 2 (inDir_tree (by decide)) distinct here with
    ⟨ip, final, completes, _⟩
  have stops : (treeOnly.run () ((dirlookup noDevices firstEntry [97]).expand (body treeDisk))
      (inTree 50)).isNone = true := by
    decide +kernel
  rw [completes.run_eq] at stops
  cases stops

end PiKernel.Fs
