import PiKernel.Fs.Layout
import PiKernel.Vm.Memory

/-!
# The user addresses of `read` and `write`

How the registers of the two calls reach the loops that copy from and to user memory.
The count is taken as 64 bits, checked as 32 bits with a sign, and used as 64 bits
again.  A program performs every access to user memory as an action; what the locked
inode and the console hold is the answer of an action too, so a program stands for its
runs in all circumstances.
-/

namespace PiKernel.Sys

open PiKernel.Conc
open PiKernel.Conc.Prog (perform)
open PiKernel.Fs

/-! ## Integers of C -/

/-- The number with a sign in the low `width` bits. -/
def toSigned (width n : Nat) : Int :=
  if n % 2 ^ width < 2 ^ (width - 1) then
    (n % 2 ^ width : Nat)
  else
    (n % 2 ^ width : Nat) - (2 ^ width : Nat)

/-- A number with a sign in 64 bits. -/
def toUnsigned (n : Int) : Nat := (n % 2 ^ 64).toNat

/-! ## Files -/

inductive FileType where
  | FD_NONE
  | FD_PIPE
  | FD_INODE
  deriving DecidableEq

/-- An open file, with the fields of its inode that never change. -/
structure OpenFile where
  type : FileType
  readable : Bool
  writable : Bool
  ipType : UInt16
  major : UInt16

/-- The major number of the console, the only entry of `devsw`. -/
def CONSOLE : UInt16 := 1

/-- The accesses of the two calls, and what they learn from the rest of the kernel. -/
inductive Act : Type → Type where
  /-- `ilock` finds the size of the inode and the offset of the file. -/
  | ilock : Act (UInt32 × UInt64)
  /-- The next character of the console; `none` if the process is killed. -/
  | getc : Act (Option UInt8)
  /-- `n` bytes are written from `dst` on. -/
  | toUser (dst n : Nat) : Act Unit
  /-- `n` bytes are read from `src` on. -/
  | fromUser (src n : Nat) : Act Unit

/-! ## The console -/

/-- The loop of `console_read`: what is left of `n`, `none` for -1. -/
def consoleReadLoop : Nat → Nat → Prog Act (Option Nat)
  | 0, _ => return some 0
  | n + 1, dst => do
      match ← perform .getc with
      | none => return none
      | some c =>
          -- C('D')
          if c = 4 then
            return some (n + 1)
          else
            perform (.toUser dst 1)
            if c = 10 then
              return some n
            else
              consoleReadLoop n ((dst + 1) % 2 ^ 64)

/-- `n` is signed: nothing is read if it is not positive. -/
def consoleRead (dst n : Nat) : Prog Act Int := do
  match ← consoleReadLoop (toSigned 64 n).toNat dst with
  | none => return -1
  | some left => return (toSigned 64 n).toNat - left

/-- The loop of `console_write`, whose index is unsigned. -/
def consoleWriteLoop : Nat → Nat → Prog Act Unit
  | 0, _ => return
  | n + 1, buf => do
      perform (.fromUser buf 1)
      consoleWriteLoop n ((buf + 1) % 2 ^ 64)

def consoleWrite (buf n : Nat) : Prog Act Int := do
  consoleWriteLoop n buf
  return toSigned 64 n

/-! ## Inodes -/

/-- The loops of `readi` and `writei`: `n` bytes block by block, at a user address. -/
def copyLoop (access : Nat → Nat → Act Unit) : Nat → Nat → Nat → Nat → Prog Act Unit
  | 0, _, _, _ => return
  | fuel + 1, n, off, va =>
      if n = 0 then
        return
      else if MAXFILE ≤ off / BSIZE then
        .panic "bmap: out of range\n"
      else do
        let m := min n (BSIZE - off % BSIZE)
        perform (access va m)
        copyLoop access fuel (n - m) (off + m) ((va + m) % 2 ^ 64)

def readi (f : OpenFile) (size dst off n : Nat) : Prog Act Int :=
  if f.ipType = T_DEV then
    if f.major = CONSOLE then
      consoleRead dst n
    else
      return -1
  else if size < off ∨ 2 ^ 64 ≤ off + n then
    return -1
  else do
    let n := if size < off + n then size - off else n
    copyLoop .toUser (n / BSIZE + 2) n off dst
    return n

def writei (f : OpenFile) (size src off n : Nat) : Prog Act Int :=
  if f.ipType = T_DEV then
    if f.major = CONSOLE then
      consoleWrite src n
    else
      return -1
  else if size < off ∨ 2 ^ 64 ≤ off + n then
    return -1
  else if MAXFILE * BSIZE < off + n then
    return -1
  else do
    copyLoop .fromUser (n / BSIZE + 2) n off src
    return n

/-! ## Files -/

/-- Read from file f. -/
def fileread (f : OpenFile) (addr n : Nat) : Prog Act Int :=
  if !f.readable then
    return -1
  else
    match f.type with
    | .FD_PIPE => .panic "fileread: pipe\n"
    | .FD_INODE => do
        let (size, off) ← perform .ilock
        readi f size.toNat addr off.toNat n
    | .FD_NONE => .panic "fileread\n"

/-- Bytes of one operation of `filewrite`. -/
def filewriteMax : Int := ((MAXOPBLOCKS - 1 - 1 - 2) / 2) * 512

/-- Some rounds of the loop of `filewrite`, which need not end; `i` is an `int`. -/
def filewriteLoop (f : OpenFile) (addr n : Nat) : Nat → Int → Prog Act Int
  | 0, i => return i
  | fuel + 1, i =>
      if i < toSigned 64 n then do
        let n1 := min (toSigned 32 (toUnsigned (toSigned 64 n - i))) filewriteMax
        let (size, off) ← perform .ilock
        let r ← writei f size.toNat (toUnsigned (addr + i)) off.toNat (toUnsigned n1)
        if r < 0 then
          return i
        else if r ≠ n1 then
          .panic "filewrite: short filewrite\n"
        else
          filewriteLoop f addr n fuel (i + r)
      else
        return i

/-- Write to file f. -/
def filewrite (f : OpenFile) (fuel addr n : Nat) : Prog Act Int :=
  if !f.writable then
    return -1
  else
    match f.type with
    | .FD_PIPE => .panic "filewrite: pipe\n"
    | .FD_INODE => do
        let i ← filewriteLoop f addr n fuel 0
        return if i = toSigned 64 n then toSigned 64 n else -1
    | .FD_NONE => .panic "filewrite\n"

/-! ## The calls -/

/-- The check of `argptr`: `size` is an `int`, and the sum has 64 bits. -/
def argptr (sz i n : Nat) : Bool :=
  !(decide (sz ≤ i) || decide (sz < (i + toUnsigned (toSigned 32 n)) % 2 ^ 64))

/-- `sys_read`; `file` is what `argfd` finds, and `addr` and `n` are the registers. -/
def sysRead (sz : Nat) (file : Option OpenFile) (addr n : UInt64) : Prog Act Int :=
  match file with
  | none => return -1
  | some f =>
      if argptr sz addr.toNat n.toNat then
        fileread f addr.toNat n.toNat
      else
        return -1

/-- So many rounds of `sys_write`. -/
def sysWrite (sz : Nat) (file : Option OpenFile) (fuel : Nat) (addr n : UInt64) :
    Prog Act Int :=
  match file with
  | none => return -1
  | some f =>
      if argptr sz addr.toNat n.toNat then
        filewrite f fuel addr.toNat n.toNat
      else
        return -1

end PiKernel.Sys
