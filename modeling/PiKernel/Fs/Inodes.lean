import PiKernel.Fs.Files

/-!
# The upper half of `fs.c`

Inodes, directories and path names, as programs over the actions on files.
Loops over a directory and over a path have as many iterations as the code can
make: the size of a locked inode does not change, and every path element is at
least one byte.
-/

namespace PiKernel.Fs

open PiKernel.Conc

variable {Pid : Type}

/-- An action on the tables. -/
def table {β : Type} (action : Table Pid β) : Prog (Act Pid) β :=
  Prog.perform (.left action)

/-- An action on an inode. -/
def perform {β : Type} (action : FileAct β) : Prog (Act Pid) β :=
  Prog.perform (.right action)

/-! ## Inodes -/

/-- Find the inode with number inum and return the in-memory copy. -/
def iget (inum : Nat) : Prog (Act Pid) (Fin NINODE) := do
  match ← table (.iget inum) with
  | none => .panic "iget: no inodes\n"
  | some ip => return ip

/-- Increment reference count for ip. -/
def idup (ip : Fin NINODE) : Prog (Act Pid) (Fin NINODE) := do
  table (.idup ip)
  return ip

/-- The loop of `ialloc` over the inode numbers `inum`, `inum + 1`, … -/
def iallocLoop (type : UInt16) : Nat → Nat → Prog (Act Pid) (Fin NINODE)
  | 0, _ => .panic "ialloc: no inodes\n"
  | count + 1, inum => do
      if ← perform (.take inum type) then
        iget inum
      else
        iallocLoop type count (inum + 1)

/-- Allocate an inode. -/
def ialloc (sb : Superblock) (type : UInt16) : Prog (Act Pid) (Fin NINODE) :=
  iallocLoop type (sb.ninodes - 1) 1

/-- Lock the given inode.  Reads the inode from disk if necessary. -/
def ilock (ip : Fin NINODE) : Prog (Act Pid) Unit := do
  if (← table (.refOf ip)) < 1 then
    .panic "ilock: invalid inode\n"
  else
    table (.acquiresleep ip)
    if ← table (.isValid ip) then
      return ()
    else
      perform (.load ip)
      table (.setValid ip true)
      if (← perform (.fields ip)).type = 0 then
        .panic "ilock: no type\n"
      else
        return ()

/-- Unlock the given inode. -/
def iunlock (ip : Fin NINODE) : Prog (Act Pid) Unit := do
  let holding ← table (.holdingsleep ip)
  let ref ← table (.refOf ip)
  if !holding || ref < 1 then
    .panic "iunlock\n"
  else
    table (.releasesleep ip)

/-- Drop a reference to an in-memory inode. -/
def iput (ip : Fin NINODE) : Prog (Act Pid) Unit := do
  table (.acquiresleep ip)
  if ← table (.isValid ip) then
    if (← perform (.fields ip)).nlink = 0 then
      if (← table (.lastRef ip)) = 1 then
        -- inode had no links and other references: truncate and free.
        perform (.free ip)
        table (.setValid ip false)
  table (.releasesleep ip)
  table (.unref ip)

/-- Common idiom: unlock, then put. -/
def iunlockput (ip : Fin NINODE) : Prog (Act Pid) Unit := do
  iunlock ip
  iput ip

/-- What the device functions of `devsw` return; they are not part of `fs.c`. -/
structure Devsw where
  read : UInt16 → Option (Nat → Option (List UInt8))
  write : UInt16 → Option (List UInt8 → Option Nat)

/-- A device releases the lock of the inode while it works. -/
def device {α : Type} (ip : Fin NINODE) (result : α) : Prog (Act Pid) α := do
  iunlock ip
  ilock ip
  return result

section Contents

variable (devsw : Devsw)

/-- Read data from inode. -/
def readi (ip : Fin NINODE) (off n : Nat) : Prog (Act Pid) (Option (List UInt8)) := do
  let copy ← perform (.fields ip)
  if copy.type = T_DEV then
    if copy.major.toNat ≥ NDEV then
      return none
    else
      match devsw.read copy.major with
      | none => return none
      | some read => device ip (read n)
  else
    perform (.readi ip off n)

/-- Write data to inode. -/
def writei (ip : Fin NINODE) (src : List UInt8) (off : Nat) : Prog (Act Pid) (Option Nat) := do
  let copy ← perform (.fields ip)
  if copy.type = T_DEV then
    if copy.major.toNat ≥ NDEV then
      return none
    else
      match devsw.write copy.major with
      | none => return none
      | some write => device ip (write src)
  else
    perform (.writei ip off src)

/-! ## Directories -/

/-- Directory is a file containing a sequence of dirent structures. -/
structure Dirent where
  inum : Nat
  name : List UInt8

/-- `sizeof(struct dirent)`. -/
def DIRENT : Nat := 2 + DIRSIZ

/-- The string in an array of characters: it ends at the first NUL. -/
def cut (name : List UInt8) : List UInt8 :=
  (name.take DIRSIZ).takeWhile (· != 0)

/-- `namecmp(s, t) == 0`. -/
def sameName (s t : List UInt8) : Bool :=
  cut s == cut t

/-- The bytes of an entry; `strncpy` fills the name with NULs. -/
def Dirent.bytes (de : Dirent) : List UInt8 :=
  UInt8.ofNat de.inum :: UInt8.ofNat (de.inum / 256) ::
    (cut de.name ++ List.replicate (DIRSIZ - (cut de.name).length) 0)

/-- The entry in some bytes. -/
def Dirent.decode (bytes : List UInt8) : Dirent where
  inum := (bytes.getD 0 0).toNat + 256 * (bytes.getD 1 0).toNat
  name := bytes.drop 2

/-- The loop of `dirlookup` from `off` on. -/
def dirlookupLoop (dp : Fin NINODE) (name : List UInt8) :
    Nat → Nat → Prog (Act Pid) (Option (Fin NINODE × Nat))
  | 0, _ => return none
  | count + 1, off => do
      match ← readi devsw dp off DIRENT with
      | none => .panic "dirlookup read"
      | some bytes =>
          if bytes.length ≠ DIRENT then
            .panic "dirlookup read"
          else
            let de := Dirent.decode bytes
            if de.inum = 0 then
              dirlookupLoop dp name count (off + DIRENT)
            else if sameName name de.name then
              let ip ← iget de.inum
              return some (ip, off)
            else
              dirlookupLoop dp name count (off + DIRENT)

/-- The number of entries up to a size; the last one may be cut short. -/
def entries (size : Nat) : Nat :=
  (size + (DIRENT - 1)) / DIRENT

/-- Look for a directory entry in a directory. -/
def dirlookup (dp : Fin NINODE) (name : List UInt8) :
    Prog (Act Pid) (Option (Fin NINODE × Nat)) := do
  let copy ← perform (.fields dp)
  if copy.type ≠ T_DIR then
    .panic "dirlookup not DIR"
  else
    dirlookupLoop devsw dp name (entries copy.size.toNat) 0

/-- The loop of `dirlink` that looks for an empty dirent. -/
def dirlinkLoop (dp : Fin NINODE) : Nat → Nat → Prog (Act Pid) Nat
  | 0, off => return off
  | count + 1, off => do
      match ← readi devsw dp off DIRENT with
      | none => .panic "dirlink read"
      | some bytes =>
          if bytes.length ≠ DIRENT then
            .panic "dirlink read"
          else if (Dirent.decode bytes).inum = 0 then
            return off
          else
            dirlinkLoop dp count (off + DIRENT)

/-- Write a new directory entry (name, inum) into the directory dp. -/
def dirlink (dp : Fin NINODE) (name : List UInt8) (inum : Nat) : Prog (Act Pid) Bool := do
  match ← dirlookup devsw dp name with
  | some (ip, _) =>
      iput ip
      return false
  | none =>
      let copy ← perform (.fields dp)
      let off ← dirlinkLoop devsw dp (entries copy.size.toNat) 0
      let de : Dirent := { inum := inum % 2 ^ 16, name := name }
      if (← writei devsw dp de.bytes off) ≠ some DIRENT then
        .panic "dirlink"
      else
        return true

/-! ## Paths -/

/-- `'/'`. -/
def slash : UInt8 := 47

/-- Copy the next path element from path into name. -/
def skipelem (path : List UInt8) : Option (List UInt8 × List UInt8) :=
  match path.dropWhile (· == slash) with
  | [] => none
  | s =>
      some ((s.dropWhile (· != slash)).dropWhile (· == slash),
        (s.takeWhile (· != slash)).take DIRSIZ)

/-- The loop of `namex`. -/
def namexLoop (nameiparent : Bool) :
    Nat → List UInt8 → List UInt8 → Fin NINODE →
      Prog (Act Pid) (Option (Fin NINODE × List UInt8))
  | fuel, path, name, ip =>
      match fuel, skipelem path with
      | fuel + 1, some (path, name) => do
          ilock ip
          if (← perform (.fields ip)).type ≠ T_DIR then
            iunlockput ip
            return none
          else if nameiparent && path.isEmpty then
            -- Stop one level early.
            iunlock ip
            return some (ip, name)
          else
            match ← dirlookup devsw ip name with
            | none =>
                iunlockput ip
                return none
            | some (next, _) =>
                iunlockput ip
                namexLoop nameiparent fuel path name next
      | _, _ =>
          if nameiparent then do
            iput ip
            return none
          else
            return some (ip, name)

/-- Look up and return the inode for a path name. -/
def namex (path : List UInt8) (nameiparent : Bool) :
    Prog (Act Pid) (Option (Fin NINODE × List UInt8)) := do
  let ip ←
    if path.head? = some slash then
      iget ROOTINO
    else do
      let cwd ← table .cwd
      idup cwd
  namexLoop devsw nameiparent path.length path [] ip

def namei (path : List UInt8) : Prog (Act Pid) (Option (Fin NINODE)) := do
  return (← namex devsw path false).map Prod.fst

def nameiparent (path : List UInt8) : Prog (Act Pid) (Option (Fin NINODE × List UInt8)) :=
  namex devsw path true

end Contents

end PiKernel.Fs
