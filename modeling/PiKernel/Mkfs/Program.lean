import PiKernel.Fs.Layout

/-!
# `mkfs`

The program that builds the initial image.  A run is a function of the input files;
`none` is an exit with another status than 0, through an assertion or through a read
past the end of the image.
-/

namespace PiKernel.Mkfs

open PiKernel.Bytes
open PiKernel.Fs

/-! ## Constants -/

def FSSIZE : Nat := 1000
def NINODES : Nat := 200
def DIRSIZ : Nat := 14
def ROOTINO : Nat := 1

def nbitmap : Nat := FSSIZE / (BSIZE * 8) + 1
def ninodeblocks : Nat := NINODES / IPB + 1
def nlog : Nat := LOGSIZE

/-- Number of meta blocks (boot, sb, nlog, inode, bitmap). -/
def nmeta : Nat := 2 + nlog + ninodeblocks + nbitmap

/-- Number of data blocks. -/
def nblocks : Nat := FSSIZE - nmeta

def sb : Superblock where
  size := FSSIZE
  nblocks := nblocks
  ninodes := NINODES
  nlog := nlog
  logstart := 2
  inodestart := 2 + nlog
  bmapstart := 2 + nlog + ninodeblocks

/-! ## Sectors -/

/-- The image file and the two counters. -/
structure Image where
  view : Nat → Block
  /-- The number of sectors of the file. -/
  length : Nat
  freeinode : Nat
  freeblock : Nat

namespace Image

/-- The sector at `sec * BSIZE`, a number of 32 bits. -/
def sector (sec : Nat) : Nat := sec * BSIZE % 2 ^ 32 / BSIZE

def wsect (s : Image) (sec : Nat) (buf : Block) : Image :=
  { s with
    view := Function.update s.view (sector sec) buf
    length := max s.length (sector sec + 1) }

def rsect (s : Image) (sec : Nat) : Option Block :=
  if sector sec < s.length then some (s.view (sector sec)) else none

/-! ## Inodes -/

def winode (s : Image) (inum : Nat) (ip : Dinode) : Option Image := do
  let buf ← s.rsect (sb.IBLOCK inum)
  return s.wsect (sb.IBLOCK inum) (Dinode.write buf (inum % IPB) ip)

def rinode (s : Image) (inum : Nat) : Option Dinode := do
  let buf ← s.rsect (sb.IBLOCK inum)
  return Dinode.read buf (inum % IPB)

/-- A new inode, and its number. -/
def ialloc (s : Image) (type : UInt16) : Option (Nat × Image) := do
  let inum := s.freeinode
  let s ← { s with freeinode := s.freeinode + 1 }.winode inum
    { Dinode.fresh type with nlink := 1 }
  return (inum, s)

/-! ## Contents -/

/-- `din.addrs[n]`, from the first free block if there is none. -/
def addr (s : Image) (din : Dinode) (n : Nat) : Dinode × Image :=
  if din.addr n = 0 then
    (din.setAddr n s.freeblock, { s with freeblock := s.freeblock + 1 })
  else
    (din, s)

/-- The entry of the indirect block at `a`. -/
def indirect (s : Image) (a n : Nat) : Option (Nat × Image) := do
  let indirect ← s.rsect a
  if entry indirect n = 0 then
    let s' := { s with freeblock := s.freeblock + 1 }
    return (s.freeblock, s'.wsect a (setEntry indirect n s.freeblock))
  else
    return (entry indirect n, s)

/-- The block for file block `fbn`, which is allocated if necessary. -/
def blockFor (s : Image) (din : Dinode) (fbn : Nat) : Option (Nat × Dinode × Image) :=
  if fbn < NDIRECT then
    let (din, s) := s.addr din fbn
    some (din.addr fbn, din, s)
  else do
    let (din, s) := s.addr din NDIRECT
    let (x, s) ← s.indirect (din.addr NDIRECT) (fbn - NDIRECT)
    return (x, din, s)

/-- The loop of `iappend`; `p` are the bytes which are left. -/
def iappendLoop : Nat → Image → Dinode → Nat → List UInt8 → Option (Nat × Dinode × Image)
  | 0, s, din, off, _ => some (off, din, s)
  | fuel + 1, s, din, off, p =>
      if p.length = 0 then
        some (off, din, s)
      else
        let fbn := off / BSIZE
        -- assert(fbn < MAXFILE)
        if fbn < MAXFILE then do
          let (x, din, s) ← s.blockFor din fbn
          let n1 := min p.length ((fbn + 1) * BSIZE - off)
          let buf ← s.rsect x
          let s := s.wsect x (splice buf (off - fbn * BSIZE) (p.take n1))
          iappendLoop fuel s din (off + n1) (p.drop n1)
        else
          none

def iappend (s : Image) (inum : Nat) (p : List UInt8) : Option Image := do
  let din ← s.rinode inum
  let (off, din, s) ← iappendLoop p.length s din din.size.toNat p
  s.winode inum { din with size := UInt32.ofNat off }

end Image

/-! ## The image -/

/-- A `struct dirent`; `strncpy` fills the name with zeros. -/
def dirent (inum : Nat) (name : List UInt8) : List UInt8 :=
  [UInt8.ofNat inum, UInt8.ofNat (inum / 256)] ++
    ((name ++ List.replicate DIRSIZ 0).take DIRSIZ)

/-- The superblock as `struct superblock`. -/
def sbBlock : Block :=
  writeFields zeroBlock
    [⟨0, 4, sb.size⟩, ⟨4, 4, sb.nblocks⟩, ⟨8, 4, sb.ninodes⟩, ⟨12, 4, sb.nlog⟩,
      ⟨16, 4, sb.logstart⟩, ⟨20, 4, sb.inodestart⟩, ⟨24, 4, sb.bmapstart⟩]

/-- An input file: its path, and the pieces that `read` returns. -/
structure Input where
  path : List UInt8
  pieces : List (List UInt8)

/-- What follows the last '/' of a path. -/
def basename (path : List UInt8) : List UInt8 :=
  (path.reverse.takeWhile (· ≠ 47)).reverse

/-- The name for the file system: one leading '_' is skipped. -/
def Input.name (input : Input) : List UInt8 :=
  match basename input.path with
  | 95 :: name => name
  | name => name

namespace Image

/-- Enter an input file into the root directory and copy it. -/
def addFile (rootino : Nat) (s : Image) (input : Input) : Option Image := do
  let (inum, s) ← s.ialloc T_FILE
  let s ← s.iappend rootino (dirent inum input.name)
  input.pieces.foldlM (fun s piece => s.iappend inum piece) s

/-- The bitmap block. -/
def balloc (s : Image) (used : Nat) : Option Image :=
  if used < BSIZE * 8 then
    some (s.wsect sb.bmapstart ((List.range used).foldl setBit zeroBlock))
  else
    none

/-- Fix size of root inode dir. -/
def fixRoot (s : Image) (rootino : Nat) : Option Image := do
  let din ← s.rinode rootino
  let off := (din.size.toNat / BSIZE + 1) * BSIZE
  s.winode rootino { din with size := UInt32.ofNat off }

end Image

/-- The image before anything is allocated. -/
def start : Image where
  view := Function.update (fun _ => zeroBlock) 1 sbBlock
  length := FSSIZE
  freeinode := 1
  freeblock := nmeta

/-- `main`; `inputs` are the files that are opened and read. -/
def main (inputs : List Input) : Option Image := do
  let (rootino, s) ← start.ialloc T_DIR
  if rootino ≠ ROOTINO then
    none
  else
    let s ← s.iappend rootino (dirent rootino [46])
    let s ← s.iappend rootino (dirent rootino [46, 46])
    let s ← inputs.foldlM (Image.addFile rootino) s
    let s ← s.fixRoot rootino
    s.balloc s.freeblock

end PiKernel.Mkfs
