import PiKernel.Base.Bytes

/-!
# Constants and blocks

The constants of `inc/fs.h` and `inc/buf.h`, and the content of one disk block.
-/

namespace PiKernel

/-- First sector of the file-system partition. -/
def MBR_BASE : Nat := 0x20800

/-- Max number of blocks any FS op writes. -/
def MAXOPBLOCKS : Nat := 10

/-- Size of the disk block cache. -/
def NBUF : Nat := MAXOPBLOCKS * 3

/-- Max data blocks in the on-disk log. -/
def LOGSIZE : Nat := MAXOPBLOCKS * 3

/-- Maximum number of processes. -/
def NPROC : Nat := 64

/-- Device number of the file system's root disk. -/
def ROOTDEV : Nat := 1

/-- Block size. -/
def BSIZE : Nat := 512

/-- The content of one block. -/
abbrev Block := Fin BSIZE → UInt8

end PiKernel
