import PiKernel.Fs.Operations
import PiKernel.Sys.Pointers

/-!
# `filewrite` with a count of 64 bits

The index of the loop and the size of a chunk are `int`, and the count has 64 bits.  The
loop may therefore stop making progress, so it is modelled by so many of its rounds.
-/

namespace PiKernel.Fs

open PiKernel.Bytes
open PiKernel.Conc
open PiKernel.Sys (toSigned toUnsigned)

variable {Pid : Type}

namespace Signed

section Code

variable (devsw : Devsw) (f : Fin NFILE)

/-- The bytes that `writei` is given: `n1` bytes at `addr + i`. -/
def source (addr : Nat → UInt8) (i n1 : Int) : List UInt8 :=
  (List.range (toUnsigned n1)).map fun k => addr (i.toNat + k)

/-- Some rounds of the loop; `none` if there are more. -/
def filewriteLoop (ip : Fin NINODE) (addr : Nat → UInt8) (n : Int) :
    Nat → Int → Prog (Act Pid) (Option Int)
  | 0, _ => return none
  | fuel + 1, i => do
      if i < n then
        let n1 := min (toSigned 32 (toUnsigned (n - i))) filewriteMax
        match ← filewriteChunk devsw f ip (source addr i n1) with
        | none => return some (if i = n then n else -1)
        | some r =>
            if (r : Int) ≠ n1 then
              .panic "filewrite: short filewrite\n"
            else
              filewriteLoop ip addr n fuel (i + r)
      else
        return some (if i = n then n else -1)

/-- Write to file f. -/
def filewrite (addr : Nat → UInt8) (fuel : Nat) (n : Int) : Prog (Act Pid) (Option Int) := do
  let file ← table (.file f)
  if !file.writable then
    return some (-1)
  else
    match file.type, file.ip with
    | .FD_PIPE, _ => .panic "filewrite: pipe\n"
    | .FD_INODE, some ip => filewriteLoop devsw f ip addr n fuel 0
    | _, _ => .panic "filewrite\n"

end Code

/-! ## Small counts -/

theorem source_nat {addr : Nat → UInt8} {i k : Nat} (small : k < 2 ^ 64) :
    source addr i k = (List.range k).map fun j => addr (i + j) := by
  have same : toUnsigned k = k := by
    unfold toUnsigned
    omega
  rw [source, same, Int.toNat_natCast]

theorem toSigned_small {n : Nat} (small : n < 2 ^ 31) : toSigned 32 (toUnsigned n) = n := by
  unfold toSigned toUnsigned
  split <;> omega

/-- The next chunk of a list of bytes. -/
theorem source_take {addr : List UInt8} {i : Nat} (within : i ≤ addr.length) :
    source (fun k => addr.getD k 0) i (min (addr.length - i : Nat) filewriteMax : Nat) =
      (addr.drop i).take filewriteMax := by
  have max : filewriteMax = 1536 := rfl
  rw [source_nat (by omega)]
  apply List.ext_getElem
  · simp [Nat.min_comm]
  · intro k first second
    simp only [List.length_map, List.length_range] at first
    simp only [List.getElem_map, List.getElem_range, List.getElem_take, List.getElem_drop]
    exact List.getD_eq_getElem _ _ (by omega)

/-- For a count that is an `int` the loop is the one without signs. -/
theorem filewriteLoop_eq (devsw : Devsw) (f : Fin NFILE) (ip : Fin NINODE)
    (addr : List UInt8) (small : addr.length < 2 ^ 31) (fuel i : Nat)
    (within : i ≤ addr.length) (enough : addr.length - i < fuel) :
    (filewriteLoop devsw f ip (fun k => addr.getD k 0) addr.length fuel i :
        Prog (Act Pid) (Option Int)) =
      Fs.filewriteLoop devsw f ip addr fuel i >>= fun r =>
        return some (r.elim (-1) fun r => (r : Int)) := by
  induction fuel generalizing i with
  | zero => omega
  | succ fuel ih =>
      unfold filewriteLoop Fs.filewriteLoop
      by_cases more : i < addr.length
      · rw [if_pos (by omega), if_pos more]
        have n1 : min (toSigned 32 (toUnsigned ((addr.length : Int) - i))) (filewriteMax : Int) =
            (min (addr.length - i) filewriteMax : Nat) := by
          rw [← Int.ofNat_sub within, toSigned_small (by omega)]
          omega
        dsimp only
        rw [n1, source_take within, Prog.bind_assoc]
        congr 1
        have length : ((addr.drop i).take filewriteMax).length =
            min (addr.length - i) filewriteMax := by simp [Nat.min_comm]
        have max : filewriteMax = 1536 := rfl
        funext result
        cases result with
        | none =>
            change Prog.ret (some (if (i : Int) = addr.length then (addr.length : Int) else -1)) =
              Prog.ret (some (-1))
            rw [if_neg (by omega)]
        | some r =>
            change (if (r : Int) ≠ (min (addr.length - i) filewriteMax : Nat) then _ else _) =
              (if r ≠ ((addr.drop i).take filewriteMax).length then _ else _) >>= _
            rw [length]
            by_cases short : r = min (addr.length - i) filewriteMax
            · rw [if_neg (by omega), if_neg (by omega), ← Nat.cast_add]
              exact ih (i + r) (by omega) (by omega)
            · rw [if_pos (by omega), if_pos short]
              rfl
      · have all : i = addr.length := by omega
        rw [if_neg (by omega), if_neg more, if_pos all, if_pos (by omega), all]
        rfl

end Signed

/-! ## One chunk -/

/--
Between the system calls of a process running alone: the file is open for writing, and
its inode is a regular file of a consistent volume.
-/
structure Ready [DecidableEq Pid] (sb : Superblock) (s : Blocks Pid) (p : Pid)
    (f : Fin NFILE) (ip : Fin NINODE) : Prop where
  consistent : Consistent sb s.view
  quiet : ∀ b, s.holder b = none
  noOps : NoOps s p
  room : MAXOPBLOCKS ≤ s.log.limit
  type : (s.ftable f).type = .FD_INODE
  writable : (s.ftable f).writable = true
  points : (s.ftable f).ip = some ip
  referenced : 0 < s.ref ip
  unlocked : s.lock ip = none
  inside : s.inum ip < sb.ninodes
  regular : (dinode sb s.view (s.inum ip)).type = T_FILE
  copy : s.valid ip = true → s.inode ip = dinode sb s.view (s.inum ip)

/-- So few bytes always fit into the log. -/
theorem writeCost_chunk {size off n : Nat} (start : off ≤ size) (short : n ≤ filewriteMax) :
    writeCost size off n < MAXOPBLOCKS := by
  have max : filewriteMax = 1536 := rfl
  have touched : blocks (off + n) - off / BSIZE ≤ 4 := by
    simp only [blocks, BSIZE]
    omega
  have fresh : blocks (off + n) - blocks size ≤ 3 := by
    simp only [blocks, BSIZE]
    omega
  unfold writeCost MAXOPBLOCKS
  split_ifs <;> omega

section Chunk

variable [DecidableEq Pid] {sb : Superblock}
  {task : Tables Pid → Pid → Prog (Act Pid) Unit → Prop} {p : Pid} {s : Blocks Pid}
  {f : Fin NFILE} {ip : Fin NINODE}

/-- An operation has begun and has locked the inode. -/
def opened (sb : Superblock) (s : Blocks Pid) (p : Pid) (ip : Fin NINODE) : Blocks Pid :=
  { began s p with
    lock := Function.update s.lock ip (some p)
    valid := Function.update s.valid ip true
    inode := Function.update s.inode ip (dinode sb s.view (s.inum ip)) }

/-- It has written some blocks. -/
def wrote (sb : Superblock) (s : Blocks Pid) (p : Pid) (ip : Fin NINODE) (view : Nat → Block)
    (e : Dinode) (bs : List Nat) : Blocks Pid :=
  { opened sb s p ip with
    view := view
    inode := Function.update (opened sb s p ip).inode ip e
    toOps := (began s p).toOps.absorbs p bs }

/-- The inode is unlocked and the operation ends. -/
theorem close_ends {t : Blocks Pid} {r : Option Nat} {mayPanic : String → Prop}
    {post : Option Nat → Blocks Pid → Prop} (referenced : 0 < t.ref ip)
    (locked : t.lock ip = some p) (only : t.log.outstanding = 1)
    (committing : t.log.committing = false)
    (holds : post r (ended { t with lock := Function.update t.lock ip none } p)) :
    (blocksSystem sb task).Ends p mayPanic post
      ((iunlock ip >>= fun _ => endOp >>= fun _ => .ret r).expand (body sb)) t := by
  apply bind_ends
  apply iunlock_ends referenced locked
  apply bind_ends
  apply endOp_ends
  · exact only
  · exact committing
  · exact System.Ends.ret holds

/-- What one operation leaves. -/
structure Chunk (sb : Superblock) (s : Blocks Pid) (p : Pid) (f : Fin NFILE)
    (ip : Fin NINODE) (off : Nat) (final : Blocks Pid) : Prop where
  ready : Ready sb final p f ip
  inum : final.inum = s.inum
  ftable : final.ftable = Function.update s.ftable f { s.ftable f with off := off }

/-- The lock is given up and the log is empty again. -/
theorem Ready.chunk (ready : Ready sb s p f ip) (off : Nat) (bs : List Nat)
    {view : Nat → Block} (consistent : Consistent sb view)
    (regular : (dinode sb view (s.inum ip)).type = T_FILE) :
    Chunk sb s p f ip off
      (ended
        { wrote sb s p ip view (dinode sb view (s.inum ip)) bs with
          ftable := Function.update s.ftable f { s.ftable f with off := off }
          lock := Function.update (opened sb s p ip).lock ip none } p) := by
  have room : ((began s p).toOps.absorbs p bs).log.limit = s.log.limit :=
    Logging.Ops.absorbs_limit
  have file : Function.update s.ftable f { s.ftable f with off := off } f =
      { s.ftable f with off := off } := Function.update_self ..
  constructor
  · constructor
    · exact consistent
    · exact ready.quiet
    · constructor
      · rfl
      · rfl
      · rfl
      · rfl
    · exact ready.room.trans_eq room.symm
    · exact (congrArg OpenFile.type file).trans ready.type
    · exact (congrArg OpenFile.writable file).trans ready.writable
    · exact (congrArg OpenFile.ip file).trans ready.points
    · exact ready.referenced
    · exact Function.update_self ..
    · exact ready.inside
    · exact regular
    · exact fun _ => Function.update_self ..
  · rfl
  · rfl

/-- The chunk is refused, or it is written and the offset moves behind it. -/
theorem filewriteChunk_ends (devsw : Devsw) (src : List UInt8) (ready : Ready sb s p f ip)
    (short : Files.writable (dinode sb s.view (s.inum ip)).size.toNat (s.ftable f).off
      src.length = true → src.length ≤ filewriteMax) :
    (blocksSystem sb task).Ends p
      (fun message => message = outOfBlocks ∧
        Files.writable (dinode sb s.view (s.inum ip)).size.toNat (s.ftable f).off
          src.length = true ∧
        (free sb s.view).card < newBlocks (dinode sb s.view (s.inum ip))
          (counts sb s.view (s.inum ip)) (blocks ((s.ftable f).off + src.length)))
      (fun result final =>
        if Files.writable (dinode sb s.view (s.inum ip)).size.toNat (s.ftable f).off
            src.length = true then
          result = some src.length ∧
            Chunk sb s p f ip ((s.ftable f).off + src.length) final ∧
            Rewritten sb s.view (s.inum ip) (s.ftable f).off src final.view
        else
          result = none ∧ Chunk sb s p f ip (s.ftable f).off final ∧ final.view = s.view)
      ((filewriteChunk devsw f ip src).expand (body sb)) s := by
  have live : Allocated sb (dinode sb s.view) (s.inum ip) := by
    refine ⟨ready.inside, ?_⟩
    rw [ready.regular]
    decide
  have file : (dinode sb s.view (s.inum ip)).toMeta.type ≠ T_DEV := by
    rw [ready.regular]
    decide
  have copy : (opened sb s p ip).inode ip = dinode sb s.view (s.inum ip) :=
    Function.update_self ..
  apply bind_ends
  apply beginOp_ends ready.noOps
  apply bind_ends
  apply ilock_ends
  · exact ready.referenced
  · exact ready.unlocked
  · exact ready.quiet _
  · exact ready.copy
  · exact live.2
  · apply System.Ends.step rfl
    change (blocksSystem sb task).Ends p _ _
      (Prog.expand _ (writei devsw ip src (s.ftable f).off >>= _)) (opened sb s p ip)
    apply bind_ends
    apply System.Ends.step rfl
    change (blocksSystem sb task).Ends p _ _ (Prog.expand _
      (if ((opened sb s p ip).inode ip).toMeta.type = T_DEV then _ else _)) _
    rw [copy, if_neg file, expand_perform]
    apply writeBytes_ends
    · exact ready.consistent
    · exact ready.quiet
    · exact live
    · exact copy
    · rw [copy]
      intro allowed _ few
      exact ⟨rfl, allowed, few⟩
    · rw [copy]
      intro allowed _ full
      have start : (s.ftable f).off ≤ (dinode sb s.view (s.inum ip)).size.toNat := by
        unfold Files.writable at allowed
        simp only [Bool.not_eq_true', Bool.or_eq_false_iff, decide_eq_false_iff_not,
          not_lt] at allowed
        exact allowed.1.1
      have cost := writeCost_chunk start (short allowed)
      have empty : (opened sb s p ip).log.lh.n = 0 := ready.noOps.empty
      have room : MAXOPBLOCKS ≤ (opened sb s p ip).log.limit := ready.room
      rw [empty, writeBlocks] at full
      split at full <;> omega
    · rw [copy]
      intro refused
      rw [refused]
      apply close_ends
      · exact ready.referenced
      · exact Function.update_self ..
      · rfl
      · exact ready.noOps.committing
      · have chunk := ready.chunk (s.ftable f).off [] ready.consistent ready.regular
        simp only [wrote, Function.update_eq_self] at chunk
        rw [← copy, Function.update_eq_self] at chunk
        exact ⟨rfl, chunk, rfl⟩
    · rw [copy]
      intro allowed view e bs rewritten same _
      rw [allowed]
      change (blocksSystem sb task).Ends p _ _ (Prog.expand _
        (if 0 < src.length then table (.setOff f ((s.ftable f).off + src.length)) >>= fun _ => _
          else _)) (wrote sb s p ip view e bs)
      have only : ((began s p).toOps.absorbs p bs).log.outstanding = 1 :=
        Logging.Ops.absorbs_outstanding
      have committing : ((began s p).toOps.absorbs p bs).log.committing = false :=
        Logging.Ops.absorbs_committing.trans ready.noOps.committing
      have regular : (dinode sb view (s.inum ip)).type = T_FILE := by
        exact (congrArg Meta.type rewritten.fields).trans ready.regular
      rw [same]
      by_cases nonempty : 0 < src.length
      · rw [if_pos nonempty]
        apply System.Ends.step rfl
        apply close_ends
        · exact ready.referenced
        · exact Function.update_self ..
        · exact only
        · exact committing
        · exact ⟨rfl, ready.chunk _ _ rewritten.consistent regular, rewritten⟩
      · rw [if_neg nonempty]
        apply close_ends
        · exact ready.referenced
        · exact Function.update_self ..
        · exact only
        · exact committing
        · have chunk := ready.chunk ((s.ftable f).off + src.length) bs rewritten.consistent regular
          have empty : src.length = 0 := by omega
          refine ⟨rfl, ?_, rewritten⟩
          rw [empty, Nat.add_zero, Function.update_eq_self] at chunk
          rw [empty]
          exact chunk

end Chunk

/-! ## The loop -/

/-- The first bytes of the data. -/
def bytes (addr : Nat → UInt8) (k : Nat) : List UInt8 :=
  (List.range k).map addr

@[simp]
theorem length_bytes {addr : Nat → UInt8} {k : Nat} : (bytes addr k).length = k := by
  simp [bytes]

theorem bytes_add {addr : Nat → UInt8} {k l : Nat} :
    bytes addr (k + l) = bytes addr k ++ (List.range l).map fun j => addr (k + j) := by
  simp [bytes, List.range_add, Function.comp_def]

/-- How many of `m` bytes fit into a file from `off` on, in whole chunks. -/
def reach (off m : Nat) : Nat :=
  if off + m ≤ MAXFILE * BSIZE then m
  else filewriteMax * ((MAXFILE * BSIZE - off) / filewriteMax)

theorem reach_le {off m : Nat} : reach off m ≤ m := by
  unfold reach
  split
  · rfl
  · have quotient := Nat.mul_div_le (MAXFILE * BSIZE - off) filewriteMax
    omega

theorem reach_eq {off m : Nat} (all : reach off m = m) (start : off ≤ MAXFILE * BSIZE) :
    off + m ≤ MAXFILE * BSIZE := by
  unfold reach at all
  split at all
  · assumption
  · have quotient := Nat.mul_div_le (MAXFILE * BSIZE - off) filewriteMax
    omega

/-- The next chunk is refused if and only if all that fits has been written. -/
theorem reach_step {off m i : Nat} (start : off ≤ MAXFILE * BSIZE) (le : i ≤ reach off m)
    (whole : filewriteMax ∣ i ∨ i = m) (more : off + m ≤ MAXFILE * BSIZE → i < m) :
    if off + i + min (m - i) filewriteMax ≤ MAXFILE * BSIZE then
      0 < min (m - i) filewriteMax ∧ i + min (m - i) filewriteMax ≤ reach off m ∧
        (filewriteMax ∣ i + min (m - i) filewriteMax ∨ i + min (m - i) filewriteMax = m)
    else i = reach off m ∧ MAXFILE * BSIZE < off + m := by
  have max : filewriteMax = 1536 := rfl
  have cap : MAXFILE * BSIZE = 71680 := rfl
  simp only [reach, max, cap] at start le whole more ⊢
  split_ifs at le ⊢ <;> omega

theorem toSigned_sub {n m i : Nat} (low : Sys.toSigned 32 n = m) (within : i ≤ m) :
    Sys.toSigned 32 (Sys.toUnsigned ((n : Int) - i)) = (m - i : Nat) := by
  unfold Sys.toSigned Sys.toUnsigned at *
  split at low <;> split <;> omega

section Loop

variable [DecidableEq Pid] {sb : Superblock}
  {task : Tables Pid → Pid → Prog (Act Pid) Unit → Prop} {p : Pid} {s t : Blocks Pid}
  {f : Fin NFILE} {ip : Fin NINODE} {addr : Nat → UInt8} {i n m : Nat}

/-- The blocks that `k` more bytes at the offset of the file need. -/
def needs (sb : Superblock) (s : Blocks Pid) (f : Fin NFILE) (ip : Fin NINODE) (k : Nat) : Nat :=
  newBlocks (dinode sb s.view (s.inum ip)) (counts sb s.view (s.inum ip))
    (blocks ((s.ftable f).off + k))

/-- The loop has written `k` bytes. -/
structure Progress (sb : Superblock) (s : Blocks Pid) (p : Pid) (f : Fin NFILE)
    (ip : Fin NINODE) (addr : Nat → UInt8) (k : Nat) (t : Blocks Pid) : Prop extends
    Chunk sb s p f ip ((s.ftable f).off + k) t where
  rewritten : Rewritten sb s.view (s.inum ip) (s.ftable f).off (bytes addr k) t.view

theorem Ready.live (ready : Ready sb s p f ip) :
    Allocated sb (dinode sb s.view) (s.inum ip) := by
  refine ⟨ready.inside, ?_⟩
  rw [ready.regular]
  decide

/-- An indirect block is there if it is needed. -/
theorem Ready.many (ready : Ready sb s p f ip) :
    NDIRECT < counts sb s.view (s.inum ip) →
      (dinode sb s.view (s.inum ip)).indirects = 1 := by
  rcases ready.consistent.owned with ⟨region, owned⟩
  exact (owned.laid _ ready.live).indirects

theorem Ready.progress (ready : Ready sb s p f ip)
    (start : (s.ftable f).off ≤ (dinode sb s.view (s.inum ip)).size.toNat) :
    Progress sb s p f ip addr 0 s := by
  have fits : blocks (s.ftable f).off ≤ counts sb s.view (s.inum ip) := by
    rw [counts, ← Nat.max_eq_right start, ← blocks_max]
    exact Nat.le_max_left ..
  have nothing := newBlocks_present fits fun large => ready.many (by omega)
  constructor
  · constructor
    · exact ready
    · rfl
    · exact (Function.update_eq_self ..).symm
  · constructor
    · exact ready.consistent
    · simp [bytes]
    · simp [bytes, Nat.max_eq_left start]
    · exact fun _ _ _ => ⟨rfl, fun _ => rfl⟩
    · rw [length_bytes, Nat.add_zero, nothing, Nat.add_zero]
    · rw [length_bytes, Nat.add_zero, nothing, Nat.add_zero]

theorem Progress.off (progress : Progress sb s p f ip addr i t) :
    (t.ftable f).off = (s.ftable f).off + i := by
  rw [progress.ftable, Function.update_self]

theorem Progress.size (progress : Progress sb s p f ip addr i t)
    (start : (s.ftable f).off ≤ (dinode sb s.view (s.inum ip)).size.toNat) :
    (dinode sb t.view (t.inum ip)).size.toNat =
      max (dinode sb s.view (s.inum ip)).size.toNat ((s.ftable f).off + i) := by
  rw [progress.inum, progress.rewritten.size start, length_bytes]

/-- One more chunk. -/
theorem Progress.next {u : Blocks Pid} {k : Nat} (progress : Progress sb s p f ip addr i t)
    (ready : Ready sb s p f ip)
    (start : (s.ftable f).off ≤ (dinode sb s.view (s.inum ip)).size.toNat)
    (chunk : Chunk sb t p f ip ((t.ftable f).off + k) u)
    (rewritten : Rewritten sb t.view (t.inum ip) (t.ftable f).off
      ((List.range k).map fun j => addr (i + j)) u.view) :
    Progress sb s p f ip addr (i + k) u := by
  rw [progress.off] at chunk rewritten
  rw [progress.inum] at rewritten
  constructor
  · constructor
    · exact chunk.ready
    · exact chunk.inum.trans progress.inum
    · rw [chunk.ftable, progress.ftable, Function.update_idem, Function.update_self,
        Nat.add_assoc]
  · rw [bytes_add]
    apply progress.rewritten.append start ready.many
    rwa [length_bytes]

/-- A chunk that is refused. -/
theorem Progress.refused {u : Blocks Pid} (progress : Progress sb s p f ip addr i t)
    (chunk : Chunk sb t p f ip (t.ftable f).off u) (same : u.view = t.view) :
    Progress sb s p f ip addr i u := by
  rw [progress.off] at chunk
  constructor
  · constructor
    · exact chunk.ready
    · exact chunk.inum.trans progress.inum
    · rw [chunk.ftable, progress.ftable, Function.update_idem, Function.update_self]
  · rw [same]
    exact progress.rewritten

/-- What the rest of the bytes needs. -/
theorem Progress.needs_add {k : Nat} (progress : Progress sb s p f ip addr i t)
    (ready : Ready sb s p f ip)
    (start : (s.ftable f).off ≤ (dinode sb s.view (s.inum ip)).size.toNat) :
    needs sb s f ip (i + k) = needs sb s f ip i + needs sb t f ip k := by
  have longer : blocks ((s.ftable f).off + (bytes addr i).length) ≤
      blocks ((s.ftable f).off + (i + k)) := by
    rw [length_bytes]
    simp only [blocks, BSIZE]
    omega
  have split := progress.rewritten.newBlocks_eq start longer ready.many
  rw [length_bytes] at split
  rw [needs, split, needs, needs, progress.off, progress.inum, Nat.add_assoc]

theorem Progress.space (progress : Progress sb s p f ip addr i t) :
    (free sb t.view).card + needs sb s f ip i = (free sb s.view).card := by
  have space := progress.rewritten.space
  rwa [length_bytes] at space

omit [DecidableEq Pid] in
theorem needs_mono {k l : Nat} (le : k ≤ l) : needs sb s f ip k ≤ needs sb s f ip l := by
  apply newBlocks_mono
  simp only [blocks, BSIZE]
  omega

theorem Ready.size_le (ready : Ready sb s p f ip) :
    (dinode sb s.view (s.inum ip)).size.toNat ≤ MAXFILE * BSIZE := by
  rcases ready.consistent.owned with ⟨region, owned⟩
  exact blocks_le_iff.mp (owned.laid _ ready.live).small

/-- The loop, as far as it gets. -/
theorem Signed.filewriteLoop_ends (devsw : Devsw) (ready : Ready sb s p f ip)
    (start : (s.ftable f).off ≤ (dinode sb s.view (s.inum ip)).size.toNat)
    (low : Sys.toSigned 32 n = m) (below : m ≤ n) (fuel : Nat)
    (progress : Progress sb s p f ip addr i t)
    (le : i ≤ reach (s.ftable f).off m) (whole : filewriteMax ∣ i ∨ i = m) :
    (blocksSystem sb task).Ends p
      (fun message => message = outOfBlocks ∧
        (free sb s.view).card < needs sb s f ip (reach (s.ftable f).off m))
      (fun value final =>
        value = none ∧ ((s.ftable f).off + m ≤ MAXFILE * BSIZE ∧ m ≠ n ∨ fuel ≤ m - i) ∨
        value = some (if (s.ftable f).off + m ≤ MAXFILE * BSIZE then (n : Int) else -1) ∧
          ((s.ftable f).off + m ≤ MAXFILE * BSIZE → m = n) ∧
          Progress sb s p f ip addr (reach (s.ftable f).off m) final)
      ((Signed.filewriteLoop devsw f ip addr n fuel i).expand (body sb)) t := by
  have within : reach (s.ftable f).off m ≤ m := reach_le
  induction fuel generalizing i t with
  | zero => exact System.Ends.ret (Or.inl ⟨rfl, Or.inr (Nat.zero_le _)⟩)
  | succ fuel ih =>
      change (blocksSystem sb task).Ends p _ _ (Prog.expand _
        (if (i : Int) < n then _ else return some (if (i : Int) = n then (n : Int) else -1))) t
      by_cases more : (i : Int) < n
      · rw [if_pos more]
        have n1 : min (Sys.toSigned 32 (Sys.toUnsigned ((n : Int) - i))) (filewriteMax : Int) =
            (min (m - i) filewriteMax : Nat) := by
          rw [toSigned_sub low (by omega)]
          omega
        have max : filewriteMax = 1536 := rfl
        dsimp only
        rw [n1, Signed.source_nat (by omega)]
        have cap : (s.ftable f).off ≤ MAXFILE * BSIZE := start.trans ready.size_le
        have step : (s.ftable f).off + m ≤ MAXFILE * BSIZE ∧ i = m ∨ _ :=
          or_iff_not_imp_left.mpr fun moves =>
            reach_step cap le whole fun fits => lt_of_le_of_ne (le.trans within) fun here =>
              moves ⟨fits, here⟩
        generalize count : min (m - i) filewriteMax = k at *
        have next : (s.ftable f).off + i + k ≤ MAXFILE * BSIZE →
            i + k ≤ reach (s.ftable f).off m ∧ (filewriteMax ∣ i + k ∨ i + k = m) := by
          intro fits
          rcases step with ⟨all, here⟩ | step
          · unfold reach
            rw [if_pos all]
            omega
          · rw [if_pos fits] at step
            exact step.2
        have length : ((List.range k).map fun j => addr (i + j)).length = k := by simp
        apply bind_ends
        apply (filewriteChunk_ends devsw _ progress.ready fun _ => by omega).mono
        · rintro message ⟨rfl, allowed, few⟩
          rw [length] at allowed few
          rw [progress.size start, progress.off, writable_iff] at allowed
          have reached : needs sb s f ip (i + k) ≤ needs sb s f ip (reach (s.ftable f).off m) :=
            needs_mono (next (by omega)).1
          have sum := progress.needs_add (k := k) ready start
          have space := progress.space
          have few : (free sb t.view).card < needs sb t f ip k := few
          exact ⟨rfl, by omega⟩
        · intro result u holds
          rw [length, progress.size start, progress.off] at holds
          split at holds <;> rename_i allowed
          · rw [writable_iff] at allowed
            rcases holds with ⟨rfl, chunk, rewritten⟩
            change (blocksSystem sb task).Ends p _ _ (Prog.expand _
              (if (k : Int) ≠ k then _ else
                Signed.filewriteLoop devsw f ip addr n fuel ((i : Int) + (k : Int)))) u
            rw [if_neg (show ¬ (k : Int) ≠ k from fun differ => differ rfl), ← Nat.cast_add]
            rw [← progress.off] at chunk rewritten
            have later := next (by omega)
            apply (ih (progress.next ready start chunk rewritten) later.1 later.2).mono
            · exact fun _ panics => panics
            · rintro value final (⟨rfl, more⟩ | done)
              · refine Or.inl ⟨rfl, ?_⟩
                rcases step with ⟨all, here⟩ | step
                · left
                  omega
                · rw [if_pos (by omega)] at step
                  omega
              · exact Or.inr done
          · rcases holds with ⟨rfl, chunk, same⟩
            have exceeds : ¬ (s.ftable f).off + i + k ≤ MAXFILE * BSIZE := by
              intro fits
              apply allowed
              rw [writable_iff]
              simp only [MAXFILE, NDIRECT, NINDIRECT, BSIZE] at fits ⊢
              omega
            rw [if_neg exceeds] at step
            have here : i = reach (s.ftable f).off m ∧ MAXFILE * BSIZE < (s.ftable f).off + m := by
              rcases step with ⟨all, here⟩ | step
              · omega
              · exact step
            apply System.Ends.ret
            right
            rw [if_neg (show ¬ (i : Int) = n by omega), if_neg (by omega), ← here.1]
            rw [← progress.off] at chunk
            exact ⟨rfl, fun fits => absurd fits (by omega), progress.refused chunk same⟩
      · have here : i = m ∧ m = n := by omega
        have all : reach (s.ftable f).off m = m := by omega
        have fits := reach_eq all (start.trans ready.size_le)
        rw [if_neg more]
        apply System.Ends.ret
        right
        rw [if_pos (by omega), if_pos fits, all, ← here.1]
        exact ⟨rfl, fun _ => here.1.trans here.2, progress⟩

/-- The first chunk is refused. -/
theorem Signed.filewriteLoop_refused (devsw : Devsw) (ready : Ready sb s p f ip) (some : 0 < n)
    (fuel : Nat)
    (refused : Files.writable (dinode sb s.view (s.inum ip)).size.toNat (s.ftable f).off
      (Sys.toUnsigned (min (Sys.toSigned 32 (Sys.toUnsigned n)) filewriteMax)) = false) :
    (blocksSystem sb task).Ends p (fun _ => False)
      (fun value final =>
        value = Option.some (-1) ∧ Chunk sb s p f ip (s.ftable f).off final ∧
          final.view = s.view)
      ((Signed.filewriteLoop devsw f ip addr n (fuel + 1) 0).expand (body sb)) s := by
  change (blocksSystem sb task).Ends p _ _ (Prog.expand _
    (if (0 : Int) < n then _ else return Option.some (if (0 : Int) = n then (n : Int) else -1))) s
  rw [if_pos (by omega), Int.sub_zero]
  have length :
      (Signed.source addr 0 (min (Sys.toSigned 32 (Sys.toUnsigned n)) filewriteMax)).length =
        Sys.toUnsigned (min (Sys.toSigned 32 (Sys.toUnsigned n)) filewriteMax) := by
    simp [Signed.source]
  rw [← length] at refused
  apply bind_ends
  apply (filewriteChunk_ends devsw _ ready fun allowed => by
    rw [refused] at allowed
    cases allowed).mono
  · rintro message ⟨_, allowed, _⟩
    rw [refused] at allowed
    cases allowed
  · intro result u holds
    rw [if_neg (by rw [refused]; decide)] at holds
    rcases holds with ⟨rfl, chunk, same⟩
    apply System.Ends.ret
    rw [if_neg (by omega)]
    exact ⟨rfl, chunk, same⟩

/-- The file is open for writing. -/
theorem Signed.filewrite_ends {devsw : Devsw} {fuel : Nat} {mayPanic : String → Prop}
    {post : Option Int → Blocks Pid → Prop} (ready : Ready sb s p f ip)
    (ends : (blocksSystem sb task).Ends p mayPanic post
      ((Signed.filewriteLoop devsw f ip addr n fuel 0).expand (body sb)) s) :
    (blocksSystem sb task).Ends p mayPanic post
      ((Signed.filewrite devsw f addr fuel n).expand (body sb)) s := by
  have file : s.ftable f =
      { s.ftable f with type := .FD_INODE, writable := true, ip := some ip } := by
    rw [← ready.type, ← ready.writable, ← ready.points]
  apply System.Ends.step rfl
  rw [file]
  exact ends

end Loop

/-! ## The result -/

section Result

variable [DecidableEq Pid] (sb : Superblock)
  (task : Tables Pid → Pid → Prog (Act Pid) Unit → Prop) (devsw : Devsw) (s : Blocks Pid)
  (p : Pid) (f : Fin NFILE) (ip : Fin NINODE) (addr : Nat → UInt8) (n : Nat)

/--
Of the `n` bytes the first `k` have been written, as by one `writei` at the old offset, and
the file has moved by them.  All of them are written if and only if `n` is returned; else
they are whole chunks.
-/
structure Exact (k : Nat) (value : Int) (final : Blocks Pid) : Prop where
  contents : contents sb final.view (s.inum ip) =
    (contents sb s.view (s.inum ip)).take (s.ftable f).off ++ bytes addr k ++
      (contents sb s.view (s.inum ip)).drop ((s.ftable f).off + k)
  start : 0 < k → (s.ftable f).off ≤ (Fs.contents sb s.view (s.inum ip)).length
  others : ∀ j, j < sb.ninodes → j ≠ s.inum ip → (dinode sb s.view j).type ≠ 0 →
    Fs.contents sb final.view j = Fs.contents sb s.view j
  ftable : final.ftable =
    Function.update s.ftable f { s.ftable f with off := (s.ftable f).off + k }
  result : value = n ∧ k = n ∨ value = -1 ∧ k < n ∧ filewriteMax ∣ k

/-- `filewrite` returns, and as it should. -/
def ReturnsExact : Prop :=
  ∃ fuel value final k,
    (blocksSystem sb task).Completes p ((Signed.filewrite devsw f addr fuel n).expand (body sb))
      s (some value) final ∧ Exact sb s f ip addr n k value final

/--
The first chunk is refused; or there is room for what fits into the file, and either the
count is an `int` or its low half does not fit.
-/
def Bounded : Prop :=
  Sys.toSigned 32 n < 0 ∨ (contents sb s.view (s.inum ip)).length < (s.ftable f).off ∨
    (n < 2 ^ 31 ∨ MAXFILE * BSIZE < (s.ftable f).off + (Sys.toSigned 32 n).toNat) ∧
      needs sb s f ip (reach (s.ftable f).off (Sys.toSigned 32 n).toNat) ≤
        (free sb s.view).card

end Result

section Outcomes

variable [DecidableEq Pid] {sb : Superblock}
  {task : Tables Pid → Pid → Prog (Act Pid) Unit → Prop} {p : Pid} {s : Blocks Pid}
  {f : Fin NFILE} {ip : Fin NINODE} {addr : Nat → UInt8} {n m k : Nat} {final : Blocks Pid}

theorem Progress.exact {value : Int} (progress : Progress sb s p f ip addr k final)
    (start : (s.ftable f).off ≤ (dinode sb s.view (s.inum ip)).size.toNat)
    (result : value = n ∧ k = n ∨ value = -1 ∧ k < n ∧ filewriteMax ∣ k) :
    Exact sb s f ip addr n k value final := by
  constructor
  · have contents := progress.rewritten.contents
    rwa [length_bytes] at contents
  · rw [length_contents]
    exact fun _ => start
  · exact fun j inside different allocated =>
      (progress.rewritten.others j inside different).2 allocated
  · exact progress.ftable
  · exact result

omit [DecidableEq Pid] in
theorem exact_nothing {value : Int} (same : final.view = s.view)
    (ftable : final.ftable = s.ftable) (result : value = n ∧ 0 = n ∨ value = -1 ∧ 0 < n) :
    Exact sb s f ip addr n 0 value final := by
  constructor
  · simp [same, bytes]
  · exact fun some => absurd some (lt_irrefl 0)
  · exact fun _ _ _ _ => by rw [same]
  · rw [ftable]
    exact (Function.update_eq_self ..).symm
  · rcases result with all | few
    · exact Or.inl all
    · exact Or.inr ⟨few.1, few.2, Nat.dvd_zero _⟩

/-- Nothing is written. -/
theorem returns_refused (devsw : Devsw) (ready : Ready sb s p f ip)
    (refused : 0 < n → Files.writable (dinode sb s.view (s.inum ip)).size.toNat (s.ftable f).off
      (Sys.toUnsigned (min (Sys.toSigned 32 (Sys.toUnsigned n)) filewriteMax)) = false) :
    ReturnsExact sb task devsw s p f ip addr n := by
  rcases Nat.eq_zero_or_pos n with rfl | some
  · have ends : (blocksSystem sb task).Ends p (fun _ => False)
        (fun value final => value = Option.some 0 ∧ final = s)
        ((Signed.filewrite devsw f addr 1 (0 : Nat)).expand (body sb)) s :=
      Signed.filewrite_ends ready (System.Ends.ret ⟨rfl, rfl⟩)
    rcases ends.completes with ⟨_, _, completes, rfl, rfl⟩
    exact ⟨1, 0, _, 0, completes, exact_nothing rfl rfl (Or.inl ⟨rfl, rfl⟩)⟩
  · have loop : (blocksSystem sb task).Ends p (fun _ => False) _
        ((Signed.filewriteLoop devsw f ip addr n 1 0).expand (body sb)) s :=
      Signed.filewriteLoop_refused devsw ready some 0 (refused some)
    rcases (Signed.filewrite_ends ready loop).completes with ⟨_, final, completes, rfl, chunk, same⟩
    have ftable := chunk.ftable
    rw [Function.update_eq_self] at ftable
    exact ⟨1, -1, final, 0, completes, exact_nothing same ftable (Or.inr ⟨rfl, some⟩)⟩

/-- The chunks are written, as far as they fit. -/
theorem returns_chunks (devsw : Devsw) (ready : Ready sb s p f ip)
    (start : (s.ftable f).off ≤ (dinode sb s.view (s.inum ip)).size.toNat)
    (low : Sys.toSigned 32 n = m) (below : m ≤ n)
    (ends : (s.ftable f).off + m ≤ MAXFILE * BSIZE → m = n)
    (room : needs sb s f ip (reach (s.ftable f).off m) ≤ (free sb s.view).card) :
    ReturnsExact sb task devsw s p f ip addr n := by
  have loop : (blocksSystem sb task).Ends p _ _
      ((Signed.filewriteLoop devsw f ip addr n (m + 1) (0 : Nat)).expand (body sb)) s :=
    Signed.filewriteLoop_ends devsw ready start low below (m + 1) (ready.progress start)
      (Nat.zero_le _) (Or.inl (Nat.dvd_zero _))
  have outcome := (Signed.filewrite_ends ready loop).mono
    (fun _ panics => (Nat.not_lt.mpr room panics.2 : False)) fun _ _ holds => holds
  rcases outcome.completes with ⟨_, final, completes, ⟨rfl, short⟩ | ⟨rfl, _, progress⟩⟩
  · omega
  · refine ⟨_, _, _, _, completes, progress.exact start ?_⟩
    split <;> rename_i fits
    · rw [reach, if_pos fits]
      exact Or.inl ⟨rfl, ends fits⟩
    · have less : reach (s.ftable f).off m < m := by
        apply lt_of_le_of_ne reach_le
        exact fun all => fits (reach_eq all (start.trans ready.size_le))
      refine Or.inr ⟨rfl, by omega, ?_⟩
      rw [reach, if_neg fits]
      exact Nat.dvd_mul_right ..

/-- If the call returns then all that fits has been written. -/
theorem progress_of_returns (devsw : Devsw) (ready : Ready sb s p f ip)
    (start : (s.ftable f).off ≤ (dinode sb s.view (s.inum ip)).size.toNat)
    (low : Sys.toSigned 32 n = m) (below : m ≤ n)
    (returns : ReturnsExact sb task devsw s p f ip addr n) :
    ((s.ftable f).off + m ≤ MAXFILE * BSIZE → m = n) ∧
      needs sb s f ip (reach (s.ftable f).off m) ≤ (free sb s.view).card := by
  rcases returns with ⟨fuel, value, final, k, completes, _⟩
  have loop : (blocksSystem sb task).Ends p _ _
      ((Signed.filewriteLoop devsw f ip addr n fuel (0 : Nat)).expand (body sb)) s :=
    Signed.filewriteLoop_ends devsw ready start low below fuel (ready.progress start)
      (Nat.zero_le _) (Or.inl (Nat.dvd_zero _))
  rcases (Signed.filewrite_ends ready loop).of_completes completes with ⟨none, _⟩ | done
  · cases none
  · refine ⟨done.2.1, ?_⟩
    have space := done.2.2.space
    omega

/-- The low half of a count is negative, or a number that is not larger. -/
theorem toSigned_cases (n : Nat) : -2 ^ 31 ≤ Sys.toSigned 32 n ∧ Sys.toSigned 32 n < 2 ^ 31 ∧
    Sys.toSigned 32 n ≤ n ∧ (n < 2 ^ 31 ↔ Sys.toSigned 32 n = n) := by
  unfold Sys.toSigned
  split <;> omega

/-- A negative size is a huge one. -/
theorem refused_negative {size off : Nat} {n1 : Int} (negative : n1 < 0)
    (least : -2 ^ 31 ≤ n1) :
    Files.writable size off (Sys.toUnsigned (min n1 filewriteMax)) = false := by
  have max : filewriteMax = 1536 := rfl
  have huge : 2 ^ 63 ≤ Sys.toUnsigned (min n1 filewriteMax) := by
    unfold Sys.toUnsigned
    omega
  rw [← Bool.not_eq_true, writable_iff, not_not]
  simp only [MAXFILE, NDIRECT, NINDIRECT, BSIZE]
  omega

/--
For every count, `filewrite` returns with the exact result if and only if the count is
bounded as above.
-/
theorem filewrite_exact (devsw : Devsw) (ready : Ready sb s p f ip) (addr : Nat → UInt8)
    (n : Nat) : ReturnsExact sb task devsw s p f ip addr n ↔ Bounded sb s f ip n := by
  have range := toSigned_cases n
  have first : 0 < n → Sys.toSigned 32 (Sys.toUnsigned n) = Sys.toSigned 32 n := by
    intro _
    unfold Sys.toSigned Sys.toUnsigned
    split <;> split <;> omega
  rw [Bounded, length_contents]
  constructor
  · intro returns
    by_contra unbounded
    rw [not_or, not_or, not_lt, not_lt] at unbounded
    rcases unbounded with ⟨positive, start, never⟩
    have done := progress_of_returns devsw ready start (Int.toNat_of_nonneg positive).symm
      (by omega) returns
    apply never
    refine ⟨?_, done.2⟩
    omega
  · intro bounded
    by_cases start : (s.ftable f).off ≤ (dinode sb s.view (s.inum ip)).size.toNat
    · by_cases negative : Sys.toSigned 32 n < 0
      · apply returns_refused devsw ready
        intro some
        rw [first some]
        exact refused_negative negative range.1
      · have fits := (bounded.resolve_left negative).resolve_left (Nat.not_lt.mpr start)
        apply returns_chunks devsw ready start (Int.toNat_of_nonneg (by omega)).symm
        · omega
        · omega
        · exact fits.2
    · apply returns_refused devsw ready
      intro _
      rw [← Bool.not_eq_true, writable_iff, not_not]
      exact Or.inl (Nat.lt_of_not_le start)

end Outcomes

/-! ## A count whose low half is zero -/

def firstFile : Fin NFILE := ⟨0, by decide⟩

/-- The only process has opened the file, and has moved to `off`. -/
def beforeWrite (off : Nat) : Blocks Unit :=
  { inWrite 0 with
    lock := fun _ => none
    ftable := fun _ =>
      { type := .FD_INODE, ref := 1, readable := true, writable := true, ip := some firstEntry,
        off := off }
    log := { (inWrite 0).log with outstanding := 0 }
    current := fun _ => none }

theorem ready_beforeWrite (off : Nat) :
    Ready smallDisk (beforeWrite off) () firstFile firstEntry := by
  have file : dinode smallDisk oneFile 1 = oneBlock :=
    (dinode_oneFile (by decide)).trans (if_pos rfl)
  constructor
  · exact consistent_oneFile
  · exact fun _ => rfl
  · constructor
    · rfl
    · rfl
    · rfl
    · rfl
  · exact (by decide : MAXOPBLOCKS ≤ 29)
  · rfl
  · rfl
  · rfl
  · exact Nat.one_pos
  · rfl
  · exact (by decide : 1 < 8)
  · exact congrArg Meta.type (congrArg Dinode.toMeta file)
  · exact fun _ => file.symm

/-- Two chunks are appended. -/
theorem filewrite_exact_append :
    ReturnsExact smallDisk (fun _ _ _ => True) noDevices (beforeWrite 512) () firstFile
      firstEntry (fun _ => 7) 3000 := by
  apply (filewrite_exact noDevices (ready_beforeWrite 512) _ _).mpr
  right
  right
  refine ⟨Or.inl (by decide), ?_⟩
  have count : needs smallDisk (beforeWrite 512) firstFile firstEntry
      (reach ((beforeWrite 512).ftable firstFile).off (Sys.toSigned 32 3000).toNat) = 6 := by
    have file : dinode smallDisk oneFile 1 = oneBlock :=
      (dinode_oneFile (by decide)).trans (if_pos rfl)
    change newBlocks (dinode smallDisk oneFile 1)
      (blocks (dinode smallDisk oneFile 1).size.toNat) _ = 6
    rw [file]
    decide
  have spare : {35, 36, 37, 38, 39, 40} ⊆ free smallDisk oneFile := by
    intro b member
    simp only [Finset.mem_insert, Finset.mem_singleton] at member
    have below : b < 128 := by omega
    rw [mem_free, used_oneFile b below, decide_eq_false_iff_not]
    exact ⟨below, by omega⟩
  have some := Finset.card_le_card spare
  rw [count]
  exact some

theorem not_filewrite_exact :
    ¬ ∀ (s : Blocks Unit) (f : Fin NFILE) (ip : Fin NINODE) (addr : Nat → UInt8) (n : Nat),
      Ready smallDisk s () f ip → n < 2 ^ 63 →
      ReturnsExact smallDisk (fun _ _ _ => True) noDevices s () f ip addr n := by
  intro always
  have returns := always (beforeWrite 0) firstFile firstEntry (fun _ => 7) (2 ^ 32)
    (ready_beforeWrite 0) (by decide)
  have done := progress_of_returns (m := 0) noDevices (ready_beforeWrite 0) (Nat.zero_le _)
    (by decide) (Nat.zero_le _) returns
  exact absurd (done.1 (Nat.zero_le _)) (by decide)

end PiKernel.Fs
