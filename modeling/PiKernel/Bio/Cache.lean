import PiKernel.Logging.Code

/-!
# The buffer cache

The cache of `kern/bio.c`: `NBUF` buffers in a list that is ordered by last
use, each with a reference count and a sleep-lock.  The critical sections on
`bcache.lock` are single actions, and so is a transfer to or from the disk.

`body` implements the block device under the log on this cache.  A process
names a block there; here it keeps the buffer which `bread` returned for the
block in a variable.
-/

namespace PiKernel.Bio

open PiKernel.Conc
open PiKernel.Conc.Prog (perform)

variable {Pid : Type}

/--
The state shared by all processes.  The fields of `struct buf` are arrays over
the buffers.  The last four fields are history: where a process is between
`bcache.lock` and the sleep-lock of a buffer, and which sectors the calls so far
have asked for and logged.
-/
structure Cache (Pid : Type) extends Logging.Ops Pid where
  /-- `B_VALID`: the data has been read from the disk. -/
  valid : Fin NBUF → Bool
  /-- `B_DIRTY`: the data needs to be written to the disk. -/
  dirty : Fin NBUF → Bool
  dev : Fin NBUF → Nat
  blockno : Fin NBUF → Nat
  refcnt : Fin NBUF → Nat
  data : Fin NBUF → Block
  /-- The holder of the sleep-lock. -/
  lock : Fin NBUF → Option Pid
  /-- The buffers from `head.next`, the most recently used first. -/
  mru : List (Fin NBUF)
  /-- The sectors of the disk. -/
  disk : Nat → Block
  /-- The variable in which a process keeps the buffer of a block. -/
  pointer : Pid → Nat → Option (Fin NBUF)
  waiting : Pid → Option (Fin NBUF)
  releasing : Pid → Option (Fin NBUF)
  /-- What a process has asked `bread` for and not yet given back with `brelse`. -/
  asked : Pid → Finset Nat
  /-- What has been passed to `log_write` and not been written home since. -/
  unhomed : Finset Nat

/-- The buffer `i` carries block `b` of the file system. -/
def Cache.Caches (s : Cache Pid) (i : Fin NBUF) (b : Nat) : Prop :=
  s.dev i = ROOTDEV ∧ s.blockno i = b + MBR_BASE

instance (s : Cache Pid) (i : Fin NBUF) (b : Nat) : Decidable (s.Caches i b) :=
  inferInstanceAs (Decidable (_ ∧ _))

inductive Act : Type → Type where
  | bget (dev blockno : Nat) : Act (Option (Fin NBUF))
  | acquiresleep (i : Fin NBUF) : Act Unit
  | holdingsleep (i : Fin NBUF) : Act Bool
  | releasesleep (i : Fin NBUF) : Act Unit
  | unref (i : Fin NBUF) : Act Unit
  | valid (i : Fin NBUF) : Act Bool
  | idleTransfer (i : Fin NBUF) : Act Bool
  | markDirty (i : Fin NBUF) : Act Unit
  | transfer (i : Fin NBUF) : Act Unit
  | load (i : Fin NBUF) : Act Block
  | store (i : Fin NBUF) (data : Block) : Act Unit
  | assign (b : Nat) (i : Fin NBUF) : Act Unit
  | buffer (b : Nat) : Act (Fin NBUF)
  | absorb (i : Fin NBUF) : Act Unit
  | readLog : Act Logging.Log
  | setHeader (lh : Logging.LogHeader) : Act Unit
  | clearHeader : Act Unit
  | beginOp : Act Unit
  | endOp : Act (Option Bool)
  | endCommit : Act Unit

/-! ## The critical sections -/

variable [DecidableEq Pid]

namespace Cache

variable (s : Cache Pid) (p : Pid) (i : Fin NBUF)

/-- The first loop of `bget`: is the block already cached? -/
def find (dev blockno : Nat) : Option (Fin NBUF) :=
  s.mru.find? fun i => s.dev i == dev && s.blockno i == blockno

/-- The second loop of `bget`: the least recently used buffer that is unused. -/
def spare : Option (Fin NBUF) :=
  s.mru.reverse.find? fun i => s.refcnt i == 0 && !s.dirty i

/-- One more process refers to the buffer. -/
def ref : Cache Pid :=
  { s with
    refcnt := Function.update s.refcnt i (s.refcnt i + 1)
    waiting := Function.update s.waiting p (some i)
    asked := Function.update s.asked p (insert (s.blockno i) (s.asked p)) }

/-- The buffer gets a new block. -/
def recycle (dev blockno : Nat) : Cache Pid :=
  { s with
    dev := Function.update s.dev i dev
    blockno := Function.update s.blockno i blockno
    valid := Function.update s.valid i false
    dirty := Function.update s.dirty i false
    refcnt := Function.update s.refcnt i 1
    waiting := Function.update s.waiting p (some i)
    asked := Function.update s.asked p (insert blockno (s.asked p)) }

/-- The critical section of `bget`, up to `acquiresleep`. -/
def bget (dev blockno : Nat) : Option (Fin NBUF) × Cache Pid :=
  match s.find dev blockno with
  | some i => (some i, s.ref p i)
  | none =>
      match s.spare with
      | some i => (some i, s.recycle p i dev blockno)
      | none => (none, s)

/-- The sleep-lock of a buffer is free. -/
def acquiresleep : Cache Pid :=
  { s with
    lock := Function.update s.lock i (some p)
    waiting := Function.update s.waiting p none }

def releasesleep : Cache Pid :=
  { s with
    lock := Function.update s.lock i none
    releasing := Function.update s.releasing p (some i) }

/-- The critical section of `brelse`: move to the head of the MRU list. -/
def unref : Cache Pid :=
  { s with
    refcnt := Function.update s.refcnt i (s.refcnt i - 1)
    mru := if s.refcnt i - 1 = 0 then i :: s.mru.erase i else s.mru
    releasing := Function.update s.releasing p none
    asked := Function.update s.asked p ((s.asked p).erase (s.blockno i)) }

/-- The disk handles the request of `sdrw`: a write if `B_DIRTY`, else a read. -/
def transfer : Cache Pid :=
  if s.dirty i then
    { s with
      disk := Function.update s.disk (s.blockno i) (s.data i)
      valid := Function.update s.valid i true
      dirty := Function.update s.dirty i false
      unhomed := s.unhomed.erase (s.blockno i) }
  else
    { s with
      data := Function.update s.data i (s.disk (s.blockno i))
      valid := Function.update s.valid i true }

/-- The critical section of `log_write`. -/
def absorb : Cache Pid :=
  { s with
    toOps := s.toOps.absorb p (s.blockno i - MBR_BASE)
    dirty := Function.update s.dirty i true
    unhomed := insert (s.blockno i) s.unhomed }

end Cache

/-- The effect of every action. -/
def exec : {β : Type} → Act β → Pid → Cache Pid → Outcome β (Cache Pid)
  | _, .bget dev blockno, p, s =>
      .done (s.bget p dev blockno).1 (s.bget p dev blockno).2
  | _, .acquiresleep i, p, s =>
      if s.lock i = none then .done () (s.acquiresleep p i) else .blocked
  | _, .holdingsleep i, p, s => .done (s.lock i = some p) s
  | _, .releasesleep i, p, s => .done () (s.releasesleep p i)
  | _, .unref i, p, s => .done () (s.unref p i)
  | _, .valid i, _, s => .done (s.valid i) s
  | _, .idleTransfer i, _, s => .done (s.valid i && !s.dirty i) s
  | _, .markDirty i, _, s =>
      .done () { s with dirty := Function.update s.dirty i true }
  | _, .transfer i, _, s => .done () (s.transfer i)
  | _, .load i, _, s => .done (s.data i) s
  | _, .store i data, _, s =>
      .done () { s with data := Function.update s.data i data }
  | _, .assign b i, p, s =>
      .done ()
        { s with
          pointer := Function.update s.pointer p
            (Function.update (s.pointer p) b (some i)) }
  | _, .buffer b, p, s =>
      match s.pointer p b with
      | some i => .done i s
      | none => .blocked
  | _, .absorb i, p, s => .done () (s.absorb p i)
  | _, .readLog, _, s => .done s.log s
  | _, .setHeader lh, _, s =>
      .done () { s with log := { s.log with lh := s.log.lh.assign lh } }
  | _, .clearHeader, _, s =>
      .done () { s with log := { s.log with lh := { s.log.lh with n := 0 } } }
  | _, .beginOp, p, s => (s.toOps.beginOp p).map fun ops => { s with toOps := ops }
  | _, .endOp, p, s =>
      .done (s.toOps.endOp p).1 { s with toOps := (s.toOps.endOp p).2 }
  | _, .endCommit, _, s => .done () { s with toOps := s.toOps.endCommit }

/-! ## `bio.c` -/

/-- Sync buf with disk. -/
def sdrw (i : Fin NBUF) : Prog Act Unit := do
  if ← perform (.idleTransfer i) then
    .panic "sdrw: nothing to do"
  else
    perform (.transfer i)

/-- Look through buffer cache for block; if not found, allocate a buffer. -/
def bget (dev blockno : Nat) : Prog Act (Fin NBUF) := do
  match ← perform (.bget dev blockno) with
  | none => .panic "bget: no buffers\n"
  | some i =>
      perform (.acquiresleep i)
      return i

/-- Return a locked buf with the contents of the indicated block. -/
def bread (dev b : Nat) : Prog Act (Fin NBUF) := do
  let i ← bget dev (b + MBR_BASE)
  if ← perform (.valid i) then
    return i
  else
    sdrw i
    return i

/-- Write the contents of a locked buf to disk. -/
def bwrite (i : Fin NBUF) : Prog Act Unit := do
  if ← perform (.holdingsleep i) then
    perform (.markDirty i)
    sdrw i
  else
    .panic "bwrite\n"

/-- Release a locked buffer. -/
def brelse (i : Fin NBUF) : Prog Act Unit := do
  if ← perform (.holdingsleep i) then
    perform (.releasesleep i)
    perform (.unref i)
  else
    .panic "brelse\n"

/-- The block device of the log on the buffer cache. -/
def body : {β : Type} → Logging.Act β → Prog Act β
  | _, .bread b => do
      let i ← bread ROOTDEV b
      perform (.assign b i)
  | _, .load b => do
      let i ← perform (.buffer b)
      perform (.load i)
  | _, .store b data => do
      let i ← perform (.buffer b)
      perform (.store i data)
  | _, .bwrite b => do
      let i ← perform (.buffer b)
      bwrite i
  | _, .brelse b => do
      let i ← perform (.buffer b)
      brelse i
  | _, .absorb b => do
      let i ← perform (.buffer b)
      perform (.absorb i)
  | _, .readLog => perform .readLog
  | _, .setHeader lh => perform (.setHeader lh)
  | _, .clearHeader => perform .clearHeader
  | _, .beginOp => perform .beginOp
  | _, .endOp => perform .endOp
  | _, .endCommit => perform .endCommit

end PiKernel.Bio
