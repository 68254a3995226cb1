import PiKernel.Fs.Inodes

/-!
# `file.c` and `sysfile.c`

Open files and the system calls on them.  The arguments are those which the
checks of `argint`, `argptr` and `argstr` let through.
-/

namespace PiKernel.Fs

open PiKernel.Conc

variable {Pid : Type}

def beginOp : Prog (Act Pid) Unit :=
  perform .beginOp

def endOp : Prog (Act Pid) Unit :=
  perform .endOp

/-! ## Open files -/

/-- Allocate a file structure. -/
def filealloc : Prog (Act Pid) (Option (Fin NFILE)) :=
  table .filealloc

/-- Increment ref count for file f. -/
def filedup (f : Fin NFILE) : Prog (Act Pid) Unit := do
  if ← table (.filedup f) then
    return ()
  else
    .panic "filedup"

/-- Close file f. -/
def fileclose (f : Fin NFILE) : Prog (Act Pid) Unit := do
  match ← table (.fileclose f) with
  | .invalid => .panic "fileclose: invalid ref\n"
  | .shared => return ()
  | .last ff =>
      match ff.type, ff.ip with
      | .FD_PIPE, _ => .panic "fileclose: pipe\n"
      | .FD_INODE, some ip =>
          beginOp
          iput ip
          endOp
      | _, _ => return ()

structure Stat where
  st_dev : Nat
  st_ino : Nat
  st_nlink : Nat
  st_size : Nat
  st_mode : Nat

def S_IFREG : Nat := 0o100000
def S_IFDIR : Nat := 0o040000

/-- Copy stat information from inode. -/
def stati (ip : Fin NINODE) : Prog (Act Pid) Stat := do
  let inum ← table (.inumOf ip)
  let copy ← perform (.fields ip)
  let st (mode : Nat) : Stat :=
    { st_dev := ROOTDEV
      st_ino := inum
      st_nlink := copy.nlink.toNat
      st_size := copy.size.toNat
      st_mode := mode }
  if copy.type = T_FILE then
    return st S_IFREG
  else if copy.type = T_DIR then
    return st S_IFDIR
  else if copy.type = T_DEV then
    return st 0
  else
    .panic "unexpected stat type %d. "

/-- Get metadata about file f. -/
def filestat (f : Fin NFILE) : Prog (Act Pid) (Option Stat) := do
  let file ← table (.file f)
  match file.type, file.ip with
  | .FD_INODE, some ip =>
      ilock ip
      let st ← stati ip
      iunlock ip
      return some st
  | _, _ => return none

section Calls

variable (devsw : Devsw)

/-- Read from file f. -/
def fileread (f : Fin NFILE) (n : Nat) : Prog (Act Pid) (Option (List UInt8)) := do
  let file ← table (.file f)
  if !file.readable then
    return none
  else
    match file.type, file.ip with
    | .FD_PIPE, _ => .panic "fileread: pipe\n"
    | .FD_INODE, some ip =>
        ilock ip
        let off ← table (.off f)
        let r ← readi devsw ip off n
        match r with
        | none => pure ()
        | some bytes =>
            if 0 < bytes.length then
              table (.setOff f (off + bytes.length))
        iunlock ip
        return r
    | _, _ => .panic "fileread\n"

/-- Bytes of one operation of `filewrite`. -/
def filewriteMax : Nat :=
  ((MAXOPBLOCKS - 1 - 1 - 2) / 2) * 512

/-- One operation of `filewrite`. -/
def filewriteChunk (f : Fin NFILE) (ip : Fin NINODE) (src : List UInt8) :
    Prog (Act Pid) (Option Nat) := do
  beginOp
  ilock ip
  let off ← table (.off f)
  let r ← writei devsw ip src off
  match r with
  | none => pure ()
  | some r =>
      if 0 < r then
        table (.setOff f (off + r))
  iunlock ip
  endOp
  return r

/-- The loop of `filewrite`: a few blocks at a time; `i` bytes are written. -/
def filewriteLoop (f : Fin NFILE) (ip : Fin NINODE) (addr : List UInt8) :
    Nat → Nat → Prog (Act Pid) (Option Nat)
  | 0, i => return if i = addr.length then some i else none
  | fuel + 1, i => do
      if i < addr.length then
        let src := (addr.drop i).take filewriteMax
        match ← filewriteChunk devsw f ip src with
        | none => return none
        | some r =>
            if r ≠ src.length then
              .panic "filewrite: short filewrite\n"
            else
              filewriteLoop f ip addr fuel (i + r)
      else
        return if i = addr.length then some i else none

/-- Write to file f. -/
def filewrite (f : Fin NFILE) (addr : List UInt8) : Prog (Act Pid) (Option Nat) := do
  let file ← table (.file f)
  if !file.writable then
    return none
  else
    match file.type, file.ip with
    | .FD_PIPE, _ => .panic "filewrite: pipe\n"
    | .FD_INODE, some ip => filewriteLoop devsw f ip addr (addr.length + 1) 0
    | _, _ => .panic "filewrite\n"

/-! ## System calls -/

/-- The struct file of a file descriptor. -/
def argfd (fd : Nat) : Prog (Act Pid) (Option (Fin NOFILE × Fin NFILE)) :=
  if inside : fd < NOFILE then do
    let f ← table (.ofile ⟨fd, inside⟩)
    return f.map fun f => (⟨fd, inside⟩, f)
  else
    return none

/-- The loop of `fdalloc`. -/
def fdallocLoop (f : Fin NFILE) : List (Fin NOFILE) → Prog (Act Pid) (Option (Fin NOFILE))
  | [] => return none
  | i :: rest => do
      match ← table (.ofile i) with
      | none =>
          table (.setOfile i (some f))
          return some i
      | some _ => fdallocLoop f rest

/-- Allocate a file descriptor for the given file. -/
def fdalloc (f : Fin NFILE) : Prog (Act Pid) (Option (Fin NOFILE)) :=
  fdallocLoop f (List.finRange NOFILE)

def sys_dup (fd : Nat) : Prog (Act Pid) (Option Nat) := do
  match ← argfd fd with
  | none => return none
  | some (_, f) =>
      match ← fdalloc f with
      | none => return none
      | some fd =>
          filedup f
          return some fd.val

def sys_read (fd n : Nat) : Prog (Act Pid) (Option (List UInt8)) := do
  match ← argfd fd with
  | none => return none
  | some (_, f) => fileread devsw f n

def sys_write (fd : Nat) (addr : List UInt8) : Prog (Act Pid) (Option Nat) := do
  match ← argfd fd with
  | none => return none
  | some (_, f) => filewrite devsw f addr

/-- The loop of `sys_writev`, which adds up what `filewrite` returns. -/
def writevLoop (f : Fin NFILE) : List (List UInt8) → Int → Prog (Act Pid) Int
  | [], tot => return tot
  | p :: iov, tot => do
      match ← filewrite devsw f p with
      | none => writevLoop f iov (tot - 1)
      | some r => writevLoop f iov (tot + r)

def sys_writev (fd : Nat) (iov : List (List UInt8)) : Prog (Act Pid) Int := do
  match ← argfd fd with
  | none => return -1
  | some (_, f) => writevLoop devsw f iov 0

def sys_close (fd : Nat) : Prog (Act Pid) (Option Unit) := do
  match ← argfd fd with
  | none => return none
  | some (fd, f) =>
      table (.setOfile fd none)
      fileclose f
      return some ()

def sys_fstat (fd : Nat) : Prog (Act Pid) (Option Stat) := do
  match ← argfd fd with
  | none => return none
  | some (_, f) => filestat f

def sys_fstatat (path : List UInt8) : Prog (Act Pid) (Option Stat) := do
  beginOp
  match ← namei devsw path with
  | none =>
      endOp
      return none
  | some ip =>
      ilock ip
      let st ← stati ip
      iunlockput ip
      endOp
      return some st

/-- The second half of `create`: the new inode and its entries. -/
def createNew (sb : Superblock) (dp : Fin NINODE) (name : List UInt8)
    (type major minor : UInt16) : Prog (Act Pid) (Fin NINODE) := do
  let ip ← ialloc sb type
  ilock ip
  let copy ← perform (.fields ip)
  perform (.setFields ip { copy with major := major, minor := minor, nlink := 1 })
  perform (.iupdate ip)
  let inum ← table (.inumOf ip)
  if type = T_DIR then
    -- Create . and .. entries.
    let dir ← perform (.fields dp)
    perform (.setFields dp { dir with nlink := dir.nlink + 1 })
    perform (.iupdate dp)
    let parent ← table (.inumOf dp)
    let dot ← dirlink devsw ip [46] inum
    if !dot then
      .panic "create: dots\n"
    else
      let dotdot ← dirlink devsw ip [46, 46] parent
      if !dotdot then
        .panic "create: dots\n"
      else
        pure ()
  if ← dirlink devsw dp name inum then
    iunlockput dp
    return ip
  else
    .panic "create: dirlink\n"

def create (sb : Superblock) (path : List UInt8) (type major minor : UInt16) :
    Prog (Act Pid) (Option (Fin NINODE)) := do
  match ← nameiparent devsw path with
  | none => return none
  | some (dp, name) =>
      ilock dp
      match ← dirlookup devsw dp name with
      | some (ip, _) =>
          iunlockput dp
          ilock ip
          if type = T_FILE && (← perform (.fields ip)).type = T_FILE then
            return some ip
          else
            iunlockput ip
            return none
      | none =>
          let ip ← createNew devsw sb dp name type major minor
          return some ip

/-- The flags of `sys_openat`; `rest` says whether any other flag is set. -/
structure OMode where
  wronly : Bool
  rdwr : Bool
  creat : Bool
  largefile : Bool
  rest : Bool

/-- `omode == (O_RDONLY | O_LARGEFILE)`. -/
def OMode.rdonly (omode : OMode) : Bool :=
  !omode.wronly && !omode.rdwr && !omode.creat && omode.largefile && !omode.rest

/-- What `sys_openat` opens: an inode that it has locked. -/
def openInode (sb : Superblock) (path : List UInt8) (omode : OMode) :
    Prog (Act Pid) (Option (Fin NINODE)) := do
  if omode.creat then
    create devsw sb path T_FILE 0 0
  else
    match ← namei devsw path with
    | none => return none
    | some ip =>
        ilock ip
        if (← perform (.fields ip)).type = T_DIR && !omode.rdonly then
          iunlockput ip
          return none
        else
          return some ip

def sys_openat (sb : Superblock) (path : List UInt8) (omode : OMode) :
    Prog (Act Pid) (Option Nat) := do
  if !omode.largefile then
    return none
  else
    beginOp
    match ← openInode devsw sb path omode with
    | none =>
        endOp
        return none
    | some ip =>
        match ← filealloc with
        | none =>
            iunlockput ip
            endOp
            return none
        | some f =>
            match ← fdalloc f with
            | none =>
                fileclose f
                iunlockput ip
                endOp
                return none
            | some fd =>
                iunlock ip
                endOp
                table (.openFile f ip (!omode.wronly) (omode.wronly || omode.rdwr))
                return some fd.val

def sys_mkdirat (sb : Superblock) (path : List UInt8) : Prog (Act Pid) (Option Unit) := do
  beginOp
  match ← create devsw sb path T_DIR 0 0 with
  | none =>
      endOp
      return none
  | some ip =>
      iunlockput ip
      endOp
      return some ()

def sys_mknodat (sb : Superblock) (path : List UInt8) (major minor : UInt16) :
    Prog (Act Pid) (Option Unit) := do
  beginOp
  match ← create devsw sb path T_DEV major minor with
  | none =>
      endOp
      return none
  | some ip =>
      iunlockput ip
      endOp
      return some ()

def sys_chdir (path : List UInt8) : Prog (Act Pid) (Option Unit) := do
  beginOp
  match ← namei devsw path with
  | none =>
      endOp
      return none
  | some ip =>
      ilock ip
      if (← perform (.fields ip)).type ≠ T_DIR then
        iunlockput ip
        endOp
        return none
      else
        iunlock ip
        let cwd ← table .cwd
        iput cwd
        endOp
        table (.setCwd (some ip))
        return some ()

/-- What `execve` reads of the file, depending on what it has read. -/
inductive Reads where
  | done
  | read (off n : Nat) (next : Option (List UInt8) → Reads)

def Reads.program (ip : Fin NINODE) : Reads → Prog (Act Pid) Unit
  | .done => return ()
  | .read off n next => do
      let bytes ← readi devsw ip off n
      (next bytes).program ip

/-- The part of `execve` that reads the program from its file. -/
def execve (path : List UInt8) (reads : Reads) : Prog (Act Pid) (Option Unit) := do
  beginOp
  match ← namei devsw path with
  | none =>
      endOp
      return none
  | some ip =>
      ilock ip
      reads.program devsw ip
      iunlockput ip
      endOp
      return some ()

end Calls

/-- The loop of `exit` over the open files. -/
def closeAll : List (Fin NOFILE) → Prog (Act Pid) Unit
  | [] => return ()
  | fd :: rest => do
      match ← table (.ofile fd) with
      | none => pure ()
      | some f =>
          fileclose f
          table (.setOfile fd none)
      closeAll rest

/-- What `exit` does to files. -/
def exit : Prog (Act Pid) Unit := do
  closeAll (List.finRange NOFILE)
  beginOp
  let cwd ← table .cwd
  iput cwd
  endOp
  table (.setCwd none)

/-- The loop of `fork` over the open files. -/
def dupAll : List (Fin NOFILE) → Prog (Act Pid) Unit
  | [] => return ()
  | fd :: rest => do
      match ← table (.ofile fd) with
      | none => pure ()
      | some f => filedup f
      dupAll rest

/-- What `fork` does to files. -/
def fork (child : Pid) : Prog (Act Pid) Unit := do
  dupAll (List.finRange NOFILE)
  let cwd ← table .cwd
  let _ ← idup cwd
  table (.start child)

end PiKernel.Fs
