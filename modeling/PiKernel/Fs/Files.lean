import PiKernel.Fs.Layout
import PiKernel.Conc.Prog
import Mathlib.Data.Finset.Basic

/-!
# Files, the inode cache and the file table

The state which the upper half of `kern/fs.c` and `kern/file.c` work on, above
the blocks of the disk: the entries of the inode cache and the open files.  One
action is one critical section of `icache.lock` or `ftable.lock`, or an access
under the sleep-lock of an inode; what the actions on inodes do to blocks is the
subject of `PiKernel.Fs.Blocks`.
-/

namespace PiKernel.Fs

open PiKernel.Conc

/-- Maximum number of active i-nodes. -/
def NINODE : Nat := 50

/-- Open files per system. -/
def NFILE : Nat := 100

theorem NFILE_pos : 0 < NFILE := by decide

/-- Open files per process. -/
def NOFILE : Nat := 16

/-- Maximum major device number. -/
def NDEV : Nat := 10

/-- Directory name length. -/
def DIRSIZ : Nat := 14

/-- Root i-number. -/
def ROOTINO : Nat := 1

inductive FdType where
  | FD_NONE
  | FD_PIPE
  | FD_INODE
  deriving DecidableEq

/-- `struct file`, but for its pipe. -/
structure OpenFile where
  type : FdType
  ref : Nat
  readable : Bool
  writable : Bool
  ip : Option (Fin NINODE)
  off : Nat

/--
The inode cache without the copies of the dinodes, the file table, and what
`struct proc` has of both.  The last three fields are history: the references to
inodes in the variables of a process, its `cwd` included, those to open files,
and whether the operation of a process frees an inode.
-/
structure Tables (Pid : Type) where
  inum : Fin NINODE → Nat
  ref : Fin NINODE → Nat
  valid : Fin NINODE → Bool
  lock : Fin NINODE → Option Pid
  ftable : Fin NFILE → OpenFile
  ofile : Pid → Fin NOFILE → Option (Fin NFILE)
  cwd : Pid → Option (Fin NINODE)
  /-- The process is not `UNUSED`. -/
  born : Pid → Bool
  hold : Pid → Fin NINODE → Nat
  fhold : Pid → Fin NFILE → Nat
  frees : Pid → Bool

/-- The result of the critical section of `fileclose`. -/
inductive Closed where
  | invalid
  | shared
  | last (ff : OpenFile)

/-- The actions on the tables. -/
inductive Table (Pid : Type) : Type → Type where
  | iget (inum : Nat) : Table Pid (Option (Fin NINODE))
  | idup (i : Fin NINODE) : Table Pid Unit
  | refOf (i : Fin NINODE) : Table Pid Nat
  /-- The critical section of `iput` that reads `ref`. -/
  | lastRef (i : Fin NINODE) : Table Pid Nat
  | unref (i : Fin NINODE) : Table Pid Unit
  | inumOf (i : Fin NINODE) : Table Pid Nat
  | isValid (i : Fin NINODE) : Table Pid Bool
  | setValid (i : Fin NINODE) (valid : Bool) : Table Pid Unit
  | acquiresleep (i : Fin NINODE) : Table Pid Unit
  | holdingsleep (i : Fin NINODE) : Table Pid Bool
  | releasesleep (i : Fin NINODE) : Table Pid Unit
  | cwd : Table Pid (Fin NINODE)
  | setCwd (i : Option (Fin NINODE)) : Table Pid Unit
  | filealloc : Table Pid (Option (Fin NFILE))
  | filedup (f : Fin NFILE) : Table Pid Bool
  | fileclose (f : Fin NFILE) : Table Pid Closed
  | file (f : Fin NFILE) : Table Pid OpenFile
  | off (f : Fin NFILE) : Table Pid Nat
  | openFile (f : Fin NFILE) (i : Fin NINODE) (readable writable : Bool) : Table Pid Unit
  | setOff (f : Fin NFILE) (off : Nat) : Table Pid Unit
  | ofile (fd : Fin NOFILE) : Table Pid (Option (Fin NFILE))
  | setOfile (fd : Fin NOFILE) (f : Option (Fin NFILE)) : Table Pid Unit
  /-- The stores of `fork` into the slot of an unused process. -/
  | start (child : Pid) : Table Pid Unit

namespace Tables

variable {Pid : Type} [DecidableEq Pid] (s : Tables Pid) (p : Pid)

/-- The entry of the inode in the cache, if it is in use. -/
def find (inum : Nat) : Option (Fin NINODE) :=
  (List.finRange NINODE).find? fun i => decide (0 < s.ref i) && s.inum i == inum

/-- The first entry that is not in use. -/
def empty : Option (Fin NINODE) :=
  (List.finRange NINODE).find? fun i => s.ref i == 0

/-- One more reference in a variable of the process. -/
def idup (i : Fin NINODE) : Tables Pid :=
  { s with
    ref := Function.update s.ref i (s.ref i + 1)
    hold := Function.update s.hold p (Function.update (s.hold p) i (s.hold p i + 1)) }

/-- The entry is for a new inode, which has not been read from disk. -/
def recycle (i : Fin NINODE) (inum : Nat) : Tables Pid :=
  { s with
    inum := Function.update s.inum i inum
    ref := Function.update s.ref i 1
    valid := Function.update s.valid i false
    hold := Function.update s.hold p (Function.update (s.hold p) i (s.hold p i + 1)) }

/-- The critical section of `iget`. -/
def iget (inum : Nat) : Option (Fin NINODE) × Tables Pid :=
  match s.find inum with
  | some i => (some i, s.idup p i)
  | none =>
      match s.empty with
      | some i => (some i, s.recycle p i inum)
      | none => (none, s)

/-- The critical section at the end of `iput`. -/
def unref (i : Fin NINODE) : Tables Pid :=
  { s with
    ref := Function.update s.ref i (s.ref i - 1)
    hold := Function.update s.hold p (Function.update (s.hold p) i (s.hold p i - 1)) }

def setFile (f : Fin NFILE) (file : OpenFile) : Tables Pid :=
  { s with ftable := Function.update s.ftable f file }

def setFhold (f : Fin NFILE) (count : Nat) : Tables Pid :=
  { s with
    fhold := Function.update s.fhold p (Function.update (s.fhold p) f count) }

/-- The critical section of `filealloc`. -/
def filealloc : Option (Fin NFILE) × Tables Pid :=
  match (List.finRange NFILE).find? fun f => (s.ftable f).ref == 0 with
  | some f => (some f, (s.setFile f { s.ftable f with ref := 1 }).setFhold p f
      (s.fhold p f + 1))
  | none => (none, s)

/-- The critical section of `filedup`; `false` for its panic. -/
def filedup (f : Fin NFILE) : Bool × Tables Pid :=
  if (s.ftable f).ref < 1 then
    (false, s)
  else
    (true, (s.setFile f { s.ftable f with ref := (s.ftable f).ref + 1 }).setFhold p f
      (s.fhold p f + 1))

/--
The critical section of `fileclose`.  The reference of a file that is closed
goes to the process, which gives it to `iput`.
-/
def fileclose (f : Fin NFILE) : Closed × Tables Pid :=
  let ff := s.ftable f
  if ff.ref < 1 then
    (.invalid, s)
  else if ff.ref - 1 > 0 then
    (.shared,
      (s.setFile f { ff with ref := ff.ref - 1 }).setFhold p f (s.fhold p f - 1))
  else
    let closed := (s.setFile f { ff with ref := 0, type := .FD_NONE }).setFhold p f
      (s.fhold p f - 1)
    (.last ff,
      match ff.type, ff.ip with
      | .FD_INODE, some i =>
          { closed with
            hold := Function.update s.hold p
              (Function.update (s.hold p) i (s.hold p i + 1)) }
      | _, _ => closed)

/-- The assignments at the end of `sys_openat`; the reference goes to the file. -/
def openFile (f : Fin NFILE) (i : Fin NINODE) (readable writable : Bool) : Tables Pid :=
  { s.setFile f
      { type := .FD_INODE
        ref := (s.ftable f).ref
        readable := readable
        writable := writable
        ip := some i
        off := 0 } with
    hold := Function.update s.hold p (Function.update (s.hold p) i (s.hold p i - 1)) }

/-- The number of descriptors of an open file. -/
def descriptors (f : Fin NFILE) : Nat :=
  (List.finRange NOFILE).countP fun fd => s.ofile p fd == some f

/--
The child has the open files and the current directory of its parent, and takes over the
references that `filedup` and `idup` have made for it.
-/
def start (child : Pid) : Tables Pid :=
  { s with
    born := Function.update s.born child true
    ofile := Function.update s.ofile child (s.ofile p)
    fhold := Function.update
      (Function.update s.fhold p fun f => s.fhold p f - s.descriptors p f) child
      (s.descriptors p)
    cwd := Function.update s.cwd child (s.cwd p)
    hold := Function.update
      (Function.update s.hold p fun i => s.hold p i - if s.cwd p = some i then 1 else 0) child
      fun i => if s.cwd p = some i then 1 else 0 }

/-- What `fork` does to the tables while no other process runs. -/
def fork (child : Pid) : Tables Pid :=
  { s with
    born := Function.update s.born child true
    ftable f := { s.ftable f with ref := (s.ftable f).ref + s.descriptors p f }
    ofile := Function.update s.ofile child (s.ofile p)
    fhold := Function.update s.fhold child (s.descriptors p)
    cwd := Function.update s.cwd child (s.cwd p)
    ref i := s.ref i + if s.cwd p = some i then 1 else 0
    hold := Function.update s.hold child fun i => if s.cwd p = some i then 1 else 0 }

/-- The effect of every action on the tables. -/
def exec : {β : Type} → Table Pid β → Pid → Tables Pid → Outcome β (Tables Pid)
  | _, .iget inum, p, s => .done (s.iget p inum).1 (s.iget p inum).2
  | _, .idup i, p, s => .done () (s.idup p i)
  | _, .refOf i, _, s => .done (s.ref i) s
  | _, .lastRef i, p, s =>
      .done (s.ref i)
        { s with frees := Function.update s.frees p (s.frees p || s.ref i == 1) }
  | _, .unref i, p, s => .done () (s.unref p i)
  | _, .inumOf i, _, s => .done (s.inum i) s
  | _, .isValid i, _, s => .done (s.valid i) s
  | _, .setValid i valid, _, s =>
      .done () { s with valid := Function.update s.valid i valid }
  | _, .acquiresleep i, p, s =>
      if s.lock i = none then
        .done () { s with lock := Function.update s.lock i (some p) }
      else
        .blocked
  | _, .holdingsleep i, p, s => .done (s.lock i = some p) s
  | _, .releasesleep i, _, s =>
      .done () { s with lock := Function.update s.lock i none }
  | _, .cwd, p, s =>
      match s.cwd p with
      | some i => .done i s
      | none => .blocked
  | _, .setCwd i, p, s =>
      .done () { s with cwd := Function.update s.cwd p i }
  | _, .filealloc, p, s => .done (s.filealloc p).1 (s.filealloc p).2
  | _, .filedup f, p, s => .done (s.filedup p f).1 (s.filedup p f).2
  | _, .fileclose f, p, s => .done (s.fileclose p f).1 (s.fileclose p f).2
  | _, .file f, _, s => .done (s.ftable f) s
  | _, .off f, _, s => .done (s.ftable f).off s
  | _, .openFile f i readable writable, p, s =>
      .done () (s.openFile p f i readable writable)
  | _, .setOff f off, _, s => .done () (s.setFile f { s.ftable f with off := off })
  | _, .ofile fd, p, s => .done (s.ofile p fd) s
  | _, .setOfile fd f, p, s =>
      .done ()
        { s with
          ofile := Function.update s.ofile p (Function.update (s.ofile p) fd f) }
  | _, .start child, p, s => if s.born child then .blocked else .done () (s.start p child)

end Tables

/-! ## Inodes with their contents -/

/-- An inode on disk: its fields and the bytes of its contents. -/
structure File extends Meta where
  data : Nat → UInt8

/-- `count` bytes of the contents. -/
def File.slice (file : File) (off count : Nat) : List UInt8 :=
  (List.range count).map fun k => file.data (off + k)

/-- The blocks of a file of some size. -/
def blocks (size : Nat) : Nat :=
  (size + BSIZE - 1) / BSIZE

/--
The blocks besides that of the inode which `writei` may log: those it writes, a
bitmap block for each that is new, and the indirect block with its bitmap block.
-/
def writeCost (size off n : Nat) : Nat :=
  if n = 0 then
    0
  else
    (blocks (off + n) - off / BSIZE) + (blocks (off + n) - blocks size) +
      if blocks size < blocks (off + n) ∧ NDIRECT < blocks (off + n) then
        if blocks size ≤ NDIRECT then 2 else 1
      else
        0

/-- The actions on inodes, and the ends of an operation. -/
inductive FileAct : Type → Type where
  | beginOp : FileAct Unit
  | endOp : FileAct Unit
  /-- The part of `ilock` which reads the inode from disk. -/
  | load (i : Fin NINODE) : FileAct Unit
  | fields (i : Fin NINODE) : FileAct Meta
  | setFields (i : Fin NINODE) (copy : Meta) : FileAct Unit
  | iupdate (i : Fin NINODE) : FileAct Unit
  /-- The part of `iput` which frees the inode on disk. -/
  | free (i : Fin NINODE) : FileAct Unit
  /-- An iteration of `ialloc`: takes the inode if it is free. -/
  | take (inum : Nat) (type : UInt16) : FileAct Bool
  | readi (i : Fin NINODE) (off n : Nat) : FileAct (Option (List UInt8))
  | writei (i : Fin NINODE) (off : Nat) (src : List UInt8) : FileAct (Option Nat)

/-- The actions on files. -/
abbrev Act (Pid : Type) : Type → Type :=
  Either (Table Pid) FileAct

namespace Files

/-- The bounds check of `readi`, and the number of bytes it then reads. -/
def readCount (size off n : Nat) : Option Nat :=
  if off > size ∨ off + n ≥ 2 ^ 64 then
    none
  else
    some (if off + n > size then size - off else n)

/-- The bounds checks of `writei`. -/
def writable (size off n : Nat) : Bool :=
  !(decide (off > size) || decide (off + n ≥ 2 ^ 64) || decide (off + n > MAXFILE * BSIZE))

end Files

end PiKernel.Fs
