import PiKernel.Fs.Files
import PiKernel.Logging.Device

/-!
# The lower half of `fs.c`

The block allocator, the blocks of an inode, and the inodes on disk, as programs
over the buffers.  A buffer is named by the number of its block and an array of
blocks stands for the buffer cache, as which it behaves while `bget` finds a
buffer (`PiKernel.Bio`); the number of buffers is left out.  The home copy of a
block is its content in the array, so that a commit only empties the header; what
it does to the disk is the subject of `PiKernel.Logging`.

`body` implements every action on files by these programs.
-/

namespace PiKernel.Fs

open PiKernel.Bytes
open PiKernel.Conc

/-- The state shared by all processes. -/
structure Blocks (Pid : Type) extends Tables Pid, Logging.Ops Pid where
  /-- The content of every block. -/
  view : Nat → Block
  /-- The holder of the lock of a buffer. -/
  holder : Nat → Option Pid
  /-- The copies of the dinodes in the inode cache. -/
  inode : Fin NINODE → Dinode

/-- The actions on buffers, on the log, and on the copy of an inode. -/
inductive BlockAct : Type → Type where
  | bread (b : Nat) : BlockAct Unit
  | load (b : Nat) : BlockAct Block
  | store (b : Nat) (data : Block) : BlockAct Unit
  | brelse (b : Nat) : BlockAct Unit
  | readLog : BlockAct Logging.Log
  | absorb (b : Nat) : BlockAct Unit
  | beginOp : BlockAct Unit
  | endOp : BlockAct (Option Bool)
  | commit : BlockAct Unit
  | endCommit : BlockAct Unit
  | inode (i : Fin NINODE) : BlockAct Dinode
  | setInode (i : Fin NINODE) (d : Dinode) : BlockAct Unit

/-- The actions of the lower half. -/
abbrev Low (Pid : Type) : Type → Type :=
  Either (Table Pid) BlockAct

variable {Pid : Type} [DecidableEq Pid]

/-- The effect of every action on blocks. -/
def BlockAct.exec : {β : Type} → BlockAct β → Pid → Blocks Pid → Outcome β (Blocks Pid)
  | _, .bread b, p, s =>
      if s.holder b = none then
        .done () { s with holder := Function.update s.holder b (some p) }
      else
        .blocked
  | _, .load b, _, s => .done (s.view b) s
  | _, .store b data, _, s =>
      .done () { s with view := Function.update s.view b data }
  | _, .brelse b, _, s =>
      .done () { s with holder := Function.update s.holder b none }
  | _, .readLog, _, s => .done s.log s
  | _, .absorb b, p, s => .done () { s with toOps := s.toOps.absorb p b }
  | _, .beginOp, p, s =>
      (s.toOps.beginOp p).map fun ops =>
        { s with toOps := ops, frees := Function.update s.frees p false }
  | _, .endOp, p, s =>
      .done (s.toOps.endOp p).1 { s with toOps := (s.toOps.endOp p).2 }
  | _, .commit, _, s =>
      .done () { s with log := { s.log with lh := { s.log.lh with n := 0 } } }
  | _, .endCommit, _, s => .done () { s with toOps := s.toOps.endCommit }
  | _, .inode i, _, s => .done (s.inode i) s
  | _, .setInode i d, _, s =>
      .done () { s with inode := Function.update s.inode i d }

/-- The effect of every action. -/
def Blocks.exec : {β : Type} → Low Pid β → Pid → Blocks Pid → Outcome β (Blocks Pid)
  | _, .left action, p, s =>
      (Tables.exec action p s.toTables).map fun tables => { s with toTables := tables }
  | _, .right action, p, s => action.exec p s

/-! ## The log -/

section Code

variable {Pid : Type}

/-- An action on blocks. -/
def block {β : Type} (action : BlockAct β) : Prog (Low Pid) β :=
  Prog.perform (.right action)

/-- The space test reads `struct log` before `log.lock` is taken. -/
def logWrite (b : Nat) : Prog (Low Pid) Unit := do
  let log ← block .readLog
  if log.tooBig then
    .panic "log_write: too big a transaction\n"
  else
    block (.absorb b)

/-- Called at the end of each FS system call. -/
def endOpBlocks : Prog (Low Pid) Unit := do
  match ← block .endOp with
  | none => .panic "end_op: log.committing\n"
  | some doCommit =>
      if doCommit then
        block .commit
        block .endCommit

/-! ## Blocks -/

/-- Zero a block. -/
def bzero (bno : Nat) : Prog (Low Pid) Unit := do
  block (.bread bno)
  block (.store bno zeroBlock)
  logWrite bno
  block (.brelse bno)

/-- The first free bit below `bound`. -/
def firstFree (data : Block) (bound : Nat) : Option Nat :=
  (List.range bound).find? fun bi => !bit data bi

variable (sb : Superblock)

/-- The outer loop of `balloc` from `b` on; the inner one is `firstFree`. -/
def ballocLoop : Nat → Nat → Prog (Low Pid) Nat
  | 0, _ => .panic "balloc: out of blocks\n"
  | count + 1, b => do
      block (.bread (sb.BBLOCK b))
      let data ← block (.load (sb.BBLOCK b))
      match firstFree data (min BPB (sb.size - b)) with
      | some bi =>
          -- Mark block in use.
          block (.store (sb.BBLOCK b) (setBit data bi))
          logWrite (sb.BBLOCK b)
          block (.brelse (sb.BBLOCK b))
          bzero (b + bi)
          return b + bi
      | none =>
          block (.brelse (sb.BBLOCK b))
          ballocLoop count (b + BPB)

/-- Allocate a zeroed disk block. -/
def balloc : Prog (Low Pid) Nat :=
  ballocLoop sb ((sb.size + BPB - 1) / BPB) 0

/-- Free a disk block. -/
def bfree (b : Nat) : Prog (Low Pid) Unit := do
  block (.bread (sb.BBLOCK b))
  let data ← block (.load (sb.BBLOCK b))
  let bi := b % BPB
  if !bit data bi then
    .panic "bfree: freeing a free block, dev %d, blockno %u\n"
  else
    block (.store (sb.BBLOCK b) (clearBit data bi))
    logWrite (sb.BBLOCK b)
    block (.brelse (sb.BBLOCK b))

/-! ## Inodes -/

/-- `addrs[n] = a` in the copy of an inode. -/
def assignAddr (ip : Fin NINODE) (n a : Nat) : Prog (Low Pid) Unit := do
  let d ← block (.inode ip)
  block (.setInode ip (d.setAddr n a))

/-- Copy a modified in-memory inode to disk. -/
def iupdate (ip : Fin NINODE) : Prog (Low Pid) Unit := do
  let inum ← Prog.perform (.left (.inumOf ip))
  block (.bread (sb.IBLOCK inum))
  let data ← block (.load (sb.IBLOCK inum))
  let d ← block (.inode ip)
  block (.store (sb.IBLOCK inum) (Dinode.write data (inum % IPB) d))
  logWrite (sb.IBLOCK inum)
  block (.brelse (sb.IBLOCK inum))

/-- The part of `ilock` which reads the inode from disk. -/
def iload (ip : Fin NINODE) : Prog (Low Pid) Unit := do
  let inum ← Prog.perform (.left (.inumOf ip))
  block (.bread (sb.IBLOCK inum))
  let data ← block (.load (sb.IBLOCK inum))
  block (.setInode ip (Dinode.read data (inum % IPB)))
  block (.brelse (sb.IBLOCK inum))

/-- An iteration of `ialloc`. -/
def itake (inum : Nat) (type : UInt16) : Prog (Low Pid) Bool := do
  block (.bread (sb.IBLOCK inum))
  let data ← block (.load (sb.IBLOCK inum))
  if (Dinode.read data (inum % IPB)).type = 0 then
    -- a free inode
    block (.store (sb.IBLOCK inum) (Dinode.write data (inum % IPB) (Dinode.fresh type)))
    logWrite (sb.IBLOCK inum)
    block (.brelse (sb.IBLOCK inum))
    return true
  else
    block (.brelse (sb.IBLOCK inum))
    return false

/-! ## Inode content -/

/-- The address in the indirect block `addr`, which is allocated if necessary. -/
def bmapEntry (addr bn : Nat) : Prog (Low Pid) Nat := do
  block (.bread addr)
  let a ← block (.load addr)
  if entry a bn = 0 then
    let found ← balloc sb
    let a ← block (.load addr)
    block (.store addr (setEntry a bn found))
    logWrite addr
    block (.brelse addr)
    return found
  else
    block (.brelse addr)
    return entry a bn

/-- `addrs[n]`, allocated if necessary. -/
def bmapAddr (ip : Fin NINODE) (n : Nat) : Prog (Low Pid) Nat := do
  let d ← block (.inode ip)
  if d.addr n = 0 then
    let addr ← balloc sb
    assignAddr ip n addr
    return addr
  else
    return d.addr n

/-- Return the disk block address of the nth block in inode ip. -/
def bmap (ip : Fin NINODE) (bn : Nat) : Prog (Low Pid) Nat :=
  if bn < NDIRECT then
    bmapAddr sb ip bn
  else if bn - NDIRECT < NINDIRECT then do
    -- Load indirect block, allocating if necessary.
    let addr ← bmapAddr sb ip NDIRECT
    bmapEntry sb addr (bn - NDIRECT)
  else
    .panic "bmap: out of range\n"

/-- The first loop of `itrunc`. -/
def itruncDirect (ip : Fin NINODE) : Prog (Low Pid) Unit :=
  (List.range NDIRECT).forM fun i => do
    let d ← block (.inode ip)
    if d.addr i ≠ 0 then
      bfree sb (d.addr i)
      assignAddr ip i 0

/-- The loop of `itrunc` over the indirect block. -/
def itruncEntries (a : Block) : Prog (Low Pid) Unit :=
  (List.range NINDIRECT).forM fun j =>
    if entry a j ≠ 0 then
      bfree sb (entry a j)
    else
      pure ()

def itruncIndirect (ip : Fin NINODE) : Prog (Low Pid) Unit := do
  let d ← block (.inode ip)
  if d.addr NDIRECT ≠ 0 then
    block (.bread (d.addr NDIRECT))
    let a ← block (.load (d.addr NDIRECT))
    itruncEntries sb a
    block (.brelse (d.addr NDIRECT))
    bfree sb (d.addr NDIRECT)
    assignAddr ip NDIRECT 0

/-- Truncate inode (discard contents). -/
def itrunc (ip : Fin NINODE) : Prog (Low Pid) Unit := do
  itruncDirect sb ip
  itruncIndirect sb ip
  let d ← block (.inode ip)
  block (.setInode ip { d with size := 0 })
  iupdate sb ip

/-- The part of `iput` which frees the inode on disk. -/
def ifree (ip : Fin NINODE) : Prog (Low Pid) Unit := do
  itrunc sb ip
  let d ← block (.inode ip)
  block (.setInode ip { d with type := 0 })
  iupdate sb ip

/-- The blocks which some bytes of a file touch. -/
def span (off n : Nat) : Nat :=
  blocks (off + n) - off / BSIZE

/-- The loop of `readi`; `n` bytes are left. -/
def readLoop (ip : Fin NINODE) : Nat → Nat → Nat → Prog (Low Pid) (List UInt8)
  | 0, _, _ => return []
  | count + 1, off, n =>
      if n = 0 then
        return []
      else do
        let b ← bmap sb ip (off / BSIZE)
        block (.bread b)
        let m := min n (BSIZE - off % BSIZE)
        let data ← block (.load b)
        block (.brelse b)
        let rest ← readLoop ip count (off + m) (n - m)
        return slice data (off % BSIZE) m ++ rest

/-- Read data from inode. -/
def readBytes (ip : Fin NINODE) (off n : Nat) : Prog (Low Pid) (Option (List UInt8)) := do
  let d ← block (.inode ip)
  match Files.readCount d.size.toNat off n with
  | none => return none
  | some n => return some (← readLoop sb ip (span off n) off n)

/-- The loop of `writei`, which returns the offset at its end. -/
def writeLoop (ip : Fin NINODE) : Nat → Nat → List UInt8 → Prog (Low Pid) Nat
  | 0, off, _ => return off
  | count + 1, off, src =>
      if src.length = 0 then
        return off
      else do
        let b ← bmap sb ip (off / BSIZE)
        block (.bread b)
        let m := min src.length (BSIZE - off % BSIZE)
        let data ← block (.load b)
        block (.store b (splice data (off % BSIZE) (src.take m)))
        logWrite b
        block (.brelse b)
        writeLoop ip count (off + m) (src.drop m)

/-- Write data to inode. -/
def writeBytes (ip : Fin NINODE) (off : Nat) (src : List UInt8) :
    Prog (Low Pid) (Option Nat) := do
  let d ← block (.inode ip)
  if !Files.writable d.size.toNat off src.length then
    return none
  else
    let off ← writeLoop sb ip (span off src.length) off src
    let d ← block (.inode ip)
    if 0 < src.length && d.size.toNat < off then
      block (.setInode ip { d with size := UInt32.ofNat off })
      iupdate sb ip
    return some src.length

/-! ## The actions on files -/

/-- The code of every action. -/
def body : {β : Type} → Act Pid β → Prog (Low Pid) β
  | _, .left action => Prog.perform (.left action)
  | _, .right .beginOp => block .beginOp
  | _, .right .endOp => endOpBlocks
  | _, .right (.load i) => iload sb i
  | _, .right (.fields i) => do
      let d ← block (.inode i)
      return d.toMeta
  | _, .right (.setFields i copy) => do
      let d ← block (.inode i)
      block (.setInode i { d with toMeta := copy })
  | _, .right (.iupdate i) => iupdate sb i
  | _, .right (.free i) => ifree sb i
  | _, .right (.take inum type) => itake sb inum type
  | _, .right (.readi i off n) => readBytes sb i off n
  | _, .right (.writei i off src) => writeBytes sb i off src

end Code

/-! ## The processes -/

/-- Processes that run programs on files, down to blocks. -/
def blocksSystem (sb : Superblock) (task : Tables Pid → Pid → Prog (Act Pid) Unit → Prop) :
    System (Low Pid) Pid (Blocks Pid) where
  exec := Blocks.exec
  task s p program := ∃ high, task s.toTables p high ∧ program = high.expand (body sb)

end PiKernel.Fs
