import PiKernel.Fs.ByteSequence

/-!
# `readi` and `writei`

The two functions on a locked inode, from a consistent volume and with no other process
running.
-/

namespace PiKernel.Fs

open PiKernel.Bytes
open PiKernel.Conc

variable {Pid : Type} [DecidableEq Pid] {sb : Superblock}
  {task : Tables Pid → Pid → Prog (Act Pid) Unit → Prop} {p : Pid}
  {s : Blocks Pid} {ip : Fin NINODE}

omit [DecidableEq Pid] in
theorem expand_perform {β : Type} (action : FileAct β) :
    (perform action : Prog (Act Pid) β).expand (body sb) = body sb (.right action) :=
  Prog.bind_ret _

/-- The volume or the log has too little room for a write that is not refused. -/
def Short (sb : Superblock) (s : Blocks Pid) (ip : Fin NINODE) (off n : Nat)
    (message : String) : Prop :=
  Files.writable (s.inode ip).size.toNat off n = true ∧ n ≠ 0 ∧
    (message = outOfBlocks ∧ (free sb s.view).card <
        newBlocks (s.inode ip) (blocks (s.inode ip).size.toNat) (blocks (off + n)) ∨
      message = logFull ∧
        s.log.limit < s.log.lh.n + writeBlocks (s.inode ip).size.toNat off n)

omit [DecidableEq Pid] in
/-- The inode is one of the volume, and its contents are as long as its copy says. -/
theorem Locked.live (locked : Locked sb s p ip) :
    Allocated sb (dinode sb s.view) (s.inum ip) ∧
      (contents sb s.view (s.inum ip)).length = (s.inode ip).size.toNat := by
  constructor
  · refine ⟨locked.inside, ?_⟩
    rw [← locked.copy]
    rcases locked.type with type | type <;> rw [type] <;> decide
  · rw [length_contents, locked.copy]

omit [DecidableEq Pid] in
theorem Locked.noDevice (locked : Locked sb s p ip) : (s.inode ip).toMeta.type ≠ T_DEV := by
  rcases locked.type with type | type <;> rw [type] <;> decide

/-- Read data from inode. -/
theorem readi_ends {mayPanic : String → Prop} {devsw : Devsw} {off n : Nat}
    {post : Option (List UInt8) → Blocks Pid → Prop} (consistent : Consistent sb s.view)
    (locked : Locked sb s p ip)
    (holds : post
      (if (contents sb s.view (s.inum ip)).length < off ∨ 2 ^ 64 ≤ off + n then none
        else some (((contents sb s.view (s.inum ip)).drop off).take n)) s) :
    (blocksSystem sb task).Ends p mayPanic post ((readi devsw ip off n).expand (body sb)) s := by
  rw [locked.live.2] at holds
  apply System.Ends.step rfl
  change (blocksSystem sb task).Ends p _ _
    (Prog.expand _ (if (s.inode ip).toMeta.type = T_DEV then _ else _)) s
  rw [if_neg locked.noDevice, expand_perform]
  rcases consistent.owned with ⟨region, owned⟩
  have laid := owned.laid _ locked.live.1
  rw [counts, ← locked.copy] at laid
  apply readBytes_ends locked.quiet laid
  rw [contents, ← locked.copy] at holds
  exact holds

/-- Write data to inode. -/
theorem writei_ends {mayPanic : String → Prop} {devsw : Devsw} {off : Nat} {src : List UInt8}
    {post : Option Nat → Blocks Pid → Prop} (consistent : Consistent sb s.view)
    (locked : Locked sb s p ip)
    (short : ∀ message, Short sb s ip off src.length message → mayPanic message)
    (refused : (contents sb s.view (s.inum ip)).length < off ∨ 2 ^ 64 ≤ off + src.length ∨
      MAXFILE * BSIZE < off + src.length → post none s)
    (accepted : ∀ view bs, ¬ ((contents sb s.view (s.inum ip)).length < off ∨
        2 ^ 64 ≤ off + src.length ∨ MAXFILE * BSIZE < off + src.length) →
      Rewritten sb s.view (s.inum ip) off src view →
      post (some src.length)
        { s with
          view := view
          inode := Function.update s.inode ip (dinode sb view (s.inum ip))
          toOps := s.toOps.absorbs p bs }) :
    (blocksSystem sb task).Ends p mayPanic post ((writei devsw ip src off).expand (body sb))
      s := by
  rw [locked.live.2] at refused accepted
  apply System.Ends.step rfl
  change (blocksSystem sb task).Ends p _ _
    (Prog.expand _ (if (s.inode ip).toMeta.type = T_DEV then _ else _)) s
  rw [if_neg locked.noDevice, expand_perform]
  have range : Files.writable (s.inode ip).size.toNat off src.length = true ↔
      ¬ ((s.inode ip).size.toNat < off ∨ 2 ^ 64 ≤ off + src.length ∨
        MAXFILE * BSIZE < off + src.length) := writable_iff
  apply writeBytes_ends consistent locked.quiet locked.live.1 locked.copy
  · exact fun allowed some few => short _ ⟨allowed, some, Or.inl ⟨rfl, few⟩⟩
  · exact fun allowed some full => short _ ⟨allowed, some, Or.inr ⟨rfl, full⟩⟩
  · intro outside
    apply refused
    by_contra inside
    rw [range.mpr inside] at outside
    cases outside
  · rintro inside view _ bs rewritten rfl _
    exact accepted view bs (range.mp inside) rewritten

/-- The inode is still locked after a write. -/
theorem Locked.rewritten {view : Nat → Block} {off : Nat} {src : List UInt8} {bs : List Nat}
    (locked : Locked sb s p ip) (rewritten : Rewritten sb s.view (s.inum ip) off src view) :
    Locked sb
      { s with
        view := view
        inode := Function.update s.inode ip (dinode sb view (s.inum ip))
        toOps := s.toOps.absorbs p bs } p ip where
  mine := locked.mine
  valid := locked.valid
  inside := locked.inside
  copy := Function.update_self ..
  type := by
    have type : (dinode sb view (s.inum ip)).type = (s.inode ip).type := by
      have same := congrArg Meta.type rewritten.fields
      rw [locked.copy]
      exact same
    simp only [Function.update_self, type]
    exact locked.type
  quiet := locked.quiet

/--
`readi` returns the bytes from `off` up to the end of the range or of the contents, and
changes nothing.  `writei` replaces the bytes of the range and leaves all other inodes
alone, unless the range is refused, or the volume or the log has too little room.
-/
theorem readi_writei (devsw : Devsw) (off n : Nat) (src : List UInt8)
    (consistent : Consistent sb s.view) (locked : Locked sb s p ip) :
    (blocksSystem sb task).Completes p ((readi devsw ip off n).expand (body sb)) s
      (if (contents sb s.view (s.inum ip)).length < off ∨ 2 ^ 64 ≤ off + n then none
        else some (((contents sb s.view (s.inum ip)).drop off).take n)) s ∧
    (blocksSystem sb task).Ends p (Short sb s ip off src.length)
      (fun result final =>
        if (contents sb s.view (s.inum ip)).length < off ∨ 2 ^ 64 ≤ off + src.length ∨
            MAXFILE * BSIZE < off + src.length then
          result = none ∧ final = s
        else
          result = some src.length ∧
            Rewritten sb s.view (s.inum ip) off src final.view ∧ Locked sb final p ip ∧
            final.toTables = s.toTables ∧ ∀ i, i ≠ ip → final.inode i = s.inode i)
      ((writei devsw ip src off).expand (body sb)) s := by
  constructor
  · have ends : (blocksSystem sb task).Ends p (fun _ => False)
        (fun value final => value = (if (contents sb s.view (s.inum ip)).length < off ∨
          2 ^ 64 ≤ off + n then none
            else some (((contents sb s.view (s.inum ip)).drop off).take n)) ∧ final = s)
        ((readi devsw ip off n).expand (body sb)) s := readi_ends consistent locked ⟨rfl, rfl⟩
    rcases ends.completes with ⟨value, final, completes, rfl, rfl⟩
    exact completes
  · apply writei_ends consistent locked fun _ => id
    · intro refused
      rw [if_pos refused]
      exact ⟨rfl, rfl⟩
    · intro view bs accepted rewritten
      rw [if_neg accepted]
      exact ⟨rfl, rewritten, locked.rewritten rewritten, rfl,
        fun i other => Function.update_of_ne other ..⟩

/-! ## A volume where one inode has a block -/

section Single

variable {d : Dinode} {a : UInt32} {view : Nat → Block}

theorem addr_single (addrs : d.addrs = fun j => if j = 0 then a else 0) (n : Nat) :
    d.addr n = if n = 0 then a.toNat else 0 := by
  unfold Dinode.addr
  rw [addrs]
  split <;> rename_i inside
  · simp only [Fin.ext_iff, Fin.val_zero]
    split <;> rfl
  · rw [if_neg]
    rintro rfl
    exact inside (by decide)

theorem ref_single (addrs : d.addrs = fun j => if j = 0 then a else 0) (k : Nat) :
    d.ref view k = if k = 0 then a.toNat else 0 := by
  have last : d.addr NDIRECT = 0 := by
    rw [addr_single addrs]
    exact if_neg (by decide)
  unfold Dinode.ref
  rw [last, addr_single addrs]
  by_cases first : k = 0
  · subst first
    rfl
  · simp [first]

theorem Laid.single (addrs : d.addrs = fun j => if j = 0 then a else 0) (used : a.toNat ≠ 0) :
    Laid d view {a.toNat} 1 := by
  constructor
  · constructor
    · intro b
      rw [Set.mem_singleton_iff]
      constructor
      · rintro rfl
        exact ⟨used, 0, ref_single addrs 0⟩
      · rintro ⟨used, k, rfl⟩
        rw [ref_single addrs] at used ⊢
        split at used
        · rw [if_pos ‹_›]
        · exact absurd rfl used
    · intro k l same used
      rw [ref_single addrs] at used same
      rw [ref_single addrs] at same
      split at used
      · rw [if_pos ‹_›] at same
        split at same
        · omega
        · exact absurd same used
      · exact absurd rfl used
  · intro k _
    rw [ref_single addrs]
    split <;> omega
  · decide

/-- No other inode has a block. -/
theorem Owned.single {d : Nat → Dinode} {count : Nat → Nat} {inum b : Nat}
    (laid : Laid (d inum) view {b} (count inum))
    (live : Allocated sb d inum)
    (others : ∀ i, i ≠ inum → Allocated sb d i → Laid (d i) view ∅ (count i))
    (inside : sb.datastart ≤ b ∧ b < sb.size)
    (marked : ∀ x, x < sb.size → (used sb view x = true ↔ x < sb.datastart ∨ x = b)) :
    Owned sb d count (fun i => if i = inum then {b} else ∅) ∅ view := by
  have mem : ∀ i x, x ∈ (if i = inum then {b} else ∅ : Set Nat) ↔ i = inum ∧ x = b := by
    intro i x
    split <;> simp_all
  constructor
  · intro i live
    by_cases here : i = inum
    · subst here
      rw [if_pos rfl]
      exact laid
    · rw [if_neg here]
      exact others i here live
  · intro i dead
    rw [if_neg]
    rintro rfl
    exact dead live
  · intro i j x first second
    rw [mem] at first second
    omega
  · exact fun _ _ _ loose => loose
  · intro i x member
    rw [mem] at member
    rw [member.2]
    exact inside
  · exact fun _ member => member.elim
  · intro x below
    rw [marked x below]
    simp only [mem, Set.mem_empty_iff_false, false_or, exists_eq_left]

end Single

/-! ## A volume with one file -/

/-- The inodes are in block 32, the bitmap is in block 33. -/
def smallDisk : Superblock where
  size := 128
  nblocks := 94
  ninodes := 8
  nlog := 30
  logstart := 2
  inodestart := 32
  bmapstart := 33

/-- A file of one block, which is the first data block. -/
def oneBlock : Dinode where
  type := T_FILE
  major := 0
  minor := 0
  nlink := 1
  size := 512
  addrs j := if j = 0 then 34 else 0

def oneFile (b : Nat) : Block :=
  if b = 32 then Dinode.write zeroBlock 1 oneBlock
  else if b = 33 then fun i => if i.val < 4 then 255 else if i.val = 4 then 7 else 0
  else zeroBlock

def firstEntry : Fin NINODE := ⟨0, by decide⟩

/-- The only process has locked the file, and so many blocks have been logged. -/
def inWrite (logged : Nat) : Blocks Unit where
  inum _ := 1
  ref _ := 1
  valid _ := true
  lock _ := some ()
  ftable _ :=
    { type := .FD_NONE, ref := 0, readable := false, writable := false, ip := none, off := 0 }
  ofile _ _ := none
  cwd _ := none
  born _ := true
  hold _ _ := 1
  fhold _ _ := 0
  frees _ := false
  log :=
    { start := 2
      size := 30
      outstanding := 1
      committing := false
      lh := { n := logged, block := fun i => 40 + i } }
  asleep _ := false
  current _ := some ∅
  finished := []
  view := oneFile
  holder _ := none
  inode _ := oneBlock

theorem dinode_oneFile {inum : Nat} (inside : inum < 8) :
    dinode smallDisk oneFile inum =
      if inum = 1 then oneBlock else Dinode.read zeroBlock inum := by
  have row : smallDisk.IBLOCK inum = 32 := by
    simp only [Superblock.IBLOCK, smallDisk, IPB]
    omega
  have place : inum % IPB = inum := Nat.mod_eq_of_lt inside
  rw [dinode, row, place]
  change Dinode.read (Dinode.write zeroBlock 1 oneBlock) inum = _
  split <;> rename_i here
  · rw [here]
    exact Dinode.read_write_same (by decide)
  · exact Dinode.read_write_other here

theorem allocated_oneFile {inum : Nat} :
    Allocated smallDisk (dinode smallDisk oneFile) inum ↔ inum = 1 := by
  constructor
  · rintro ⟨inside, type⟩
    rw [dinode_oneFile inside] at type
    by_contra other
    rw [if_neg other] at type
    exact type (by simp [Dinode.read, readLE_zeroBlock])
  · rintro rfl
    refine ⟨by decide, ?_⟩
    rw [dinode_oneFile (by decide), if_pos rfl]
    decide

theorem used_oneFile : ∀ b, b < 128 → used smallDisk oneFile b = decide (b ≤ 34) := by
  decide

theorem laid_oneFile : Laid oneBlock oneFile {34} 1 :=
  Laid.single (a := 34) rfl (by decide)

theorem consistent_oneFile : Consistent smallDisk oneFile := by
  constructor
  · constructor
    · decide
    · decide
    · intro b below
      simp only [Superblock.BBLOCK, Superblock.datastart, smallDisk, BPB, BSIZE] at below ⊢
      omega
    · decide
  · refine ⟨fun i => if i = 1 then {34} else ∅, ?_⟩
    apply Owned.single
    · rw [counts, dinode_oneFile (by decide), if_pos rfl]
      exact laid_oneFile
    · exact allocated_oneFile.mpr rfl
    · exact fun i other live => absurd (allocated_oneFile.mp live) other
    · decide
    · intro b below
      rw [used_oneFile b below, decide_eq_true_eq]
      simp only [Superblock.datastart, smallDisk]
      omega

theorem locked_oneFile (logged : Nat) : Locked smallDisk (inWrite logged) () firstEntry := by
  constructor
  · rfl
  · rfl
  · exact (by decide : 1 < 8)
  · exact ((dinode_oneFile (by decide)).trans (if_pos rfl)).symm
  · exact Or.inl rfl
  · exact fun _ => rfl

theorem size_oneFile : (contents smallDisk oneFile 1).length = 512 := by
  rw [length_contents, dinode_oneFile (by decide), if_pos rfl]
  rfl

def noDevices : Devsw where
  read _ := none
  write _ := none

def processOnly : System (Low Unit) Unit (Blocks Unit) :=
  blocksSystem smallDisk fun _ _ _ => True

/-- The end of the file is read, and a byte is appended, for which there is room. -/
theorem readi_writei_oneFile :
    processOnly.Completes () ((readi noDevices firstEntry 510 5).expand (body smallDisk))
      (inWrite 0) (some (((contents smallDisk oneFile 1).drop 510).take 5)) (inWrite 0) ∧
    ∃ final, processOnly.Completes ()
        ((writei noDevices firstEntry [7] 512).expand (body smallDisk)) (inWrite 0)
        (some 1) final ∧
      Rewritten smallDisk oneFile 1 512 [7] final.view := by
  have both : processOnly.Completes () _ _ _ _ ∧ processOnly.Ends () _ _ _ _ :=
    readi_writei noDevices 510 5 [7] consistent_oneFile (locked_oneFile 0)
  have append : processOnly.Completes () _ _ _ _ ∧ processOnly.Ends () _ _ _ _ :=
    readi_writei noDevices 512 0 [7] consistent_oneFile (locked_oneFile 0)
  have size : (contents smallDisk (inWrite 0).view ((inWrite 0).inum firstEntry)).length = 512 :=
    size_oneFile
  rw [size] at both append
  constructor
  · have reads := both.1
    rw [if_neg (by omega)] at reads
    exact reads
  · have room : ∀ message, ¬ Short smallDisk (inWrite 0) firstEntry 512 1 message := by
      rintro message ⟨_, _, ⟨_, short⟩ | ⟨_, short⟩⟩
      · have spare : 35 ∈ free smallDisk oneFile := by
          rw [mem_free, used_oneFile 35 (by decide)]
          decide
        have some := Finset.card_pos.mpr ⟨35, spare⟩
        exact absurd short (Nat.not_lt.mpr some)
      · revert short
        decide
    have ends := append.2.mono (fun message short => room message short) fun _ _ holds => holds
    rcases ends.completes with ⟨value, final, completes, holds⟩
    rw [if_neg (by simp [MAXFILE, NDIRECT, NINDIRECT, BSIZE])] at holds
    rcases holds with ⟨rfl, rewritten, _⟩
    exact ⟨final, completes, rewritten⟩

/-- The log is full. -/
theorem not_readi_writei :
    ¬ ∀ (s : Blocks Unit) (ip : Fin NINODE) (off : Nat) (src : List UInt8),
      Consistent smallDisk s.view → Locked smallDisk s () ip →
      off ≤ (contents smallDisk s.view (s.inum ip)).length → off + src.length ≤ MAXFILE * BSIZE →
      newBlocks (s.inode ip) (blocks (s.inode ip).size.toNat) (blocks (off + src.length)) ≤
        (free smallDisk s.view).card →
      ∃ final, processOnly.Completes ()
        ((writei noDevices ip src off).expand (body smallDisk)) s (some src.length) final := by
  intro always
  have still := always (inWrite 29) firstEntry 0 [7] consistent_oneFile (locked_oneFile 29)
    (Nat.zero_le _) (by decide) (Nat.zero_le _)
  rcases still with ⟨final, completes⟩
  have stops : (processOnly.run () ((writei noDevices firstEntry [7] 0).expand (body smallDisk))
      (inWrite 29)).isNone = true := by
    decide
  rw [completes.run_eq] at stops
  cases stops

end PiKernel.Fs
