import PiKernel.Vm.Paging

/-!
# `execve`

Replacing the image of the running process.  The file that `namei` and `ilock`
have found is an argument, as are the strings of `argv`, which lie in the old
address space and do not change.  The structures are those of `elf.h`.
-/

namespace PiKernel.Vm

open PiKernel.Conc
open PiKernel.Conc.Prog (perform)

/-! ## ELF headers -/

/-- The little-endian number in some bytes of a structure. -/
def numberAt (bytes : List UInt8) (off width : Nat) : Nat :=
  ((bytes.drop off).take width).foldr (fun byte rest => byte.toNat + 256 * rest) 0

/-- `ELFMAG`. -/
def ELFMAG : List UInt8 := [0x7f, 0x45, 0x4c, 0x46]

/-- The fields of `Elf64_Ehdr` that are used. -/
structure Ehdr where
  e_entry : Nat
  e_phoff : Nat
  e_phnum : Nat

/-- `sizeof(Elf64_Ehdr)`. -/
def ehdrSize : Nat := 64

def Ehdr.decode (bytes : List UInt8) : Ehdr where
  e_entry := numberAt bytes 24 8
  e_phoff := numberAt bytes 32 8
  e_phnum := numberAt bytes 56 2

/-- The fields of `Elf64_Phdr` that are used. -/
structure Phdr where
  p_type : Nat
  p_offset : Nat
  p_vaddr : Nat
  p_filesz : Nat
  p_memsz : Nat
  deriving DecidableEq

/-- `sizeof(Elf64_Phdr)`. -/
def phdrSize : Nat := 56

def Phdr.decode (bytes : List UInt8) : Phdr where
  p_type := numberAt bytes 0 4
  p_offset := numberAt bytes 8 8
  p_vaddr := numberAt bytes 16 8
  p_filesz := numberAt bytes 32 8
  p_memsz := numberAt bytes 40 8

def PT_LOAD : Nat := 1

/-- A number converted to `int`, and back to 64 bits. -/
def toInt (n : Nat) : Nat :=
  if n % 2 ^ 32 < 2 ^ 31 then n % 2 ^ 32 else 2 ^ 64 - 2 ^ 32 + n % 2 ^ 32

/-- A structure of the file, read with `readi`; `none` where it is cut off. -/
def readExactly (ip : Fs.File) (off n : Nat) : Option (List UInt8) :=
  (readi ip off n).bind fun bytes => if bytes.length = n then some bytes else none

/-- The program headers that the loop of `execve` meets, up to one it cannot read. -/
def programHeaders (ip : Fs.File) : Nat → Nat → List (Option Phdr)
  | 0, _ => []
  | e_phnum + 1, off =>
      match readExactly ip off phdrSize with
      | none => [none]
      | some bytes =>
          some (Phdr.decode bytes) :: programHeaders ip e_phnum (toInt (off + phdrSize))

/-! ## The image -/

variable {Pid : Type}

section Load

variable (kernelEnd : Nat)

/-- Load the segments of the file; `none` for `goto bad`. -/
def loadSegments (pgdir : Nat) (ip : Fs.File) :
    List (Option Phdr) → Nat → Prog (Act Pid) (Option Nat)
  | [], sz => return some sz
  | none :: _, _ => return none
  | some ph :: rest, sz =>
      if ph.p_type ≠ PT_LOAD then
        loadSegments pgdir ip rest sz
      else if ph.p_memsz < ph.p_filesz then
        return none
      else if 2 ^ 64 ≤ ph.p_vaddr + ph.p_memsz then
        return none
      else do
        let sz' ← uvmAlloc kernelEnd pgdir sz (ph.p_vaddr + ph.p_memsz)
        if sz' = 0 then
          return none
        else if ← uvmLoad pgdir ph.p_vaddr ip ph.p_offset ph.p_filesz then
          loadSegments pgdir ip rest sz'
        else
          return none

/-! ## The user stack -/

def MAXARG : Nat := 32
def AT_NULL : Nat := 0
def AT_PAGESZ : Nat := 6

/-- Subtraction of 64-bit numbers. -/
def sub64 (a b : Nat) : Nat := (a + 2 ^ 64 - b) % 2 ^ 64

/-- `sp & -3`. -/
def align (sp : Nat) : Nat := sp &&& (2 ^ 64 - 3)

/-- An array of `uint64_t` in memory. -/
def wordBytes (words : List Nat) : List UInt8 :=
  words.flatMap fun w => (List.range 8).map fun i => UInt8.ofNat (w / 256 ^ i)

/--
Push argument strings.  The result is the stack pointer with the entries of
`ustack`, `none` for `goto bad`.
-/
def pushArguments (pgdir : Nat) :
    List (List UInt8) → List Nat → Nat → Prog (Act Pid) (Option (Nat × List Nat))
  | [], ustack, sp => return some (sp, ustack)
  | arg :: argv, ustack, sp =>
      if ustack.length ≥ MAXARG then
        return none
      else do
        let sp := align (sub64 sp (arg.length + 1))
        if ← copyout pgdir sp (arg ++ [0]) then
          pushArguments pgdir argv (ustack ++ [sp]) sp
        else
          return none

/-- Push the vectors and `argc`. -/
def pushVectors (self : Pid) (pgdir : Nat) (ustack : List Nat) (sp : Nat) :
    Prog (Act Pid) (Option Nat) := do
  let argc := ustack.length
  let proc ← perform (.proc self)
  perform (.setTf self { proc.tf with r0 := argc })
  let sp := if argc % 2 = 0 then sub64 sp 8 else sp
  let sp := sub64 sp 32
  if ← copyout pgdir sp (wordBytes [0, AT_PAGESZ, PGSIZE, AT_NULL]) then
    let sp := sub64 sp 8
    if ← copyout pgdir sp (wordBytes [0]) then
      let sp := sub64 sp ((argc + 1) * 8)
      let proc ← perform (.proc self)
      perform (.setTf self { proc.tf with r1 := sp })
      if ← copyout pgdir sp (wordBytes (ustack ++ [0])) then
        let sp := sub64 sp 8
        let proc ← perform (.proc self)
        if ← copyout pgdir sp (wordBytes [proc.tf.r0]) then
          return some sp
        else
          return none
      else
        return none
    else
      return none
  else
    return none

/-- Allocate the user stack and fill it: its size with the stack pointer. -/
def userStack (self : Pid) (pgdir : Nat) (argv : List (List UInt8)) (sz : Nat) :
    Prog (Act Pid) (Option (Nat × Nat)) := do
  let sz ← uvmAlloc kernelEnd pgdir (ROUNDUP sz PGSIZE) (ROUNDUP sz PGSIZE + 2 * PGSIZE)
  if sz = 0 then
    return none
  else
    clearpteu pgdir (sz - 2 * PGSIZE)
    match ← pushArguments pgdir argv [] sz with
    | none => return none
    | some (sp, ustack) =>
        match ← pushVectors self pgdir ustack sp with
        | none => return none
        | some sp => return some (sz, sp)

/-- The new image in a new page table: its size with the stack pointer. -/
def loadImage (self : Pid) (pgdir : Nat) (ip : Fs.File) (elf : Ehdr)
    (argv : List (List UInt8)) : Prog (Act Pid) (Option (Nat × Nat)) := do
  match ← loadSegments kernelEnd pgdir ip (programHeaders ip elf.e_phnum (toInt elf.e_phoff)) 0 with
  | none => return none
  | some sz => userStack kernelEnd self pgdir argv sz

/-- `execve`; `file` is what `namei` finds. -/
def execve (self : Pid) (file : Option Fs.File) (argv : List (List UInt8)) :
    Prog (Act Pid) (Option Nat) :=
  match file with
  | none => return none
  | some ip =>
      match readExactly ip 0 ehdrSize with
      | none => return none
      | some bytes =>
          if bytes.take 4 ≠ ELFMAG then
            return none
          else do
            let elf := Ehdr.decode bytes
            let pgdir ← pgdirInit
            match ← loadImage kernelEnd self pgdir ip elf argv with
            | none =>
                vmFree kernelEnd pgdir 1
                return none
            | some (sz, sp) =>
                let proc ← perform (.proc self)
                perform (.setPgdir self pgdir)
                perform (.setSz self sz)
                perform (.setTf self { proc.tf with sp := sp, elr := elf.e_entry })
                vmFree kernelEnd proc.pgdir 1
                return some proc.tf.r0

end Load

end PiKernel.Vm
