import PiKernel.Vm.Memory
import PiKernel.Fs.Files

/-!
# `kalloc.c` and `vm.c`

The page allocator and the page tables, as programs over physical memory.  A
page table entry is named by the page that holds it and its index.
`kernelEnd` is the first page behind the kernel's image.
-/

namespace PiKernel.Vm

open PiKernel.Conc
open PiKernel.Conc.Prog (perform)

variable {Pid : Type}

/-! ## Pages -/

/-- Allocate one 4096-byte page of physical memory, filled with junk. -/
def kalloc : Prog (Act Pid) (Option Nat) := do
  match ← perform .alloc with
  | none => return none
  | some r =>
      perform (.fill r 5)
      return some r

/-- Free the page of physical memory. -/
def kfree (kernelEnd x : Nat) : Prog (Act Pid) Unit :=
  if x < kernelEnd || x * PGSIZE ≥ PHYSTOP then
    .panic "kfree\n"
  else
    perform (.free x)

/-! ## Entries -/

def PTE_P : Nat := 1
def PTE_PAGE : Nat := 2
def PTE_TABLE : Nat := 2
def PTE_USER : Nat := 64
def PTE_RW : Nat := 0
def PTE_RO : Nat := 128
def PTE_AF : Nat := 1024
def PTE_NORMAL : Nat := PTE_P ||| 4 ||| PTE_AF

/-- `pte & PTE_P`. -/
def present (pte : Nat) : Bool := pte.testBit 0

/-- `pte & PTE_USER`. -/
def user (pte : Nat) : Bool := pte.testBit 6

/-- The page of `PTE_ADDR(pte)`. -/
def pageOf (pte : Nat) : Nat := pte / PGSIZE

/-- An entry for a page with some flags. -/
def entry (x flags : Nat) : Nat := x * PGSIZE + flags

/-- The index of a virtual address in the table of a level. -/
def PTX (level va : Nat) : Nat := va / 2 ^ (39 - 9 * level) % ENTRYSZ

def ROUNDDOWN (a n : Nat) : Nat := a - a % n

def ROUNDUP (a n : Nat) : Nat := ROUNDDOWN (a + n - 1) n

/-! ## Page tables -/

/-- The loop of `pgdir_walk`; `levels` tables are still to be passed. -/
def pgdirWalkLoop (va : Nat) (alloc : Bool) :
    Nat → Nat → Nat → Prog (Act Pid) (Option (Nat × Nat))
  | 0, level, pgdir => return some (pgdir, PTX level va)
  | levels + 1, level, pgdir => do
      let pte ← perform (.word pgdir (PTX level va))
      if present pte then
        pgdirWalkLoop va alloc levels (level + 1) (pageOf pte)
      else if !alloc then
        return none
      else
        match ← kalloc with
        | none => return none
        | some next =>
            perform (.fill next 0)
            perform (.setWord pgdir (PTX level va) (entry next (PTE_P ||| PTE_TABLE)))
            pgdirWalkLoop va alloc levels (level + 1) next

/-- The page table entry for a virtual address. -/
def pgdirWalk (pgdir va : Nat) (alloc : Bool) : Prog (Act Pid) (Option (Nat × Nat)) :=
  pgdirWalkLoop va alloc 3 0 pgdir

/-- The loop of `map_region` over the pages from `a` on. -/
def mapRegionLoop (pgdir perm : Nat) : Nat → Nat → Nat → Prog (Act Pid) Bool
  | 0, _, _ => return true
  | pages + 1, a, x => do
      match ← pgdirWalk pgdir a true with
      | none => return false
      | some (table, i) =>
          if present (← perform (.word table i)) then
            .panic "remap"
          else
            perform (.setWord table i
              (entry x (perm ||| PTE_P ||| PTE_TABLE ||| PTE_AF ||| PTE_NORMAL)))
            mapRegionLoop pgdir perm pages (a + PGSIZE) (x + 1)

/-- Create PTEs for the virtual addresses from `va` on; `false` for -1. -/
def mapRegion (pgdir va size x perm : Nat) : Prog (Act Pid) Bool :=
  let a := ROUNDDOWN va PGSIZE
  let last := ROUNDDOWN (va + size - 1) PGSIZE
  mapRegionLoop pgdir perm ((last - a) / PGSIZE + 1) a x

/-- Get a new page table. -/
def pgdirInit : Prog (Act Pid) Nat := do
  match ← kalloc with
  | none => .panic "pgdir_init: kalloc failed\n"
  | some pgt =>
      perform (.fill pgt 0)
      return pgt

section Free

variable (kernelEnd : Nat)

/-- The loop of `vm_free` over the last tables. -/
def vmFreeLeaves (pgdir : Nat) : Prog (Act Pid) Unit :=
  (List.range ENTRYSZ).forM fun i => do
    let pte ← perform (.word pgdir i)
    if present pte then
      kfree kernelEnd (pageOf pte)

/-- Free a page table; the argument is 3 less the `level` of the source. -/
def vmFreeFrom : Nat → Nat → Prog (Act Pid) Unit
  | 0, pgdir => vmFreeLeaves kernelEnd pgdir
  | below + 1, pgdir => do
      (List.range ENTRYSZ).forM fun i => do
        let pte ← perform (.word pgdir i)
        if present pte then
          vmFreeFrom below (pageOf pte)
      kfree kernelEnd pgdir

/-- Free a page table. -/
def vmFree (pgdir level : Nat) : Prog (Act Pid) Unit :=
  if level ≤ 3 then
    vmFreeFrom kernelEnd (3 - level) pgdir
  else
    .panic "vm_free: unexpected level: %d\n"

/-- Load binary code into address 0 of pgdir. -/
def uvmInit (pgdir : Nat) (binary : List UInt8) : Prog (Act Pid) Unit :=
  if binary.length > PGSIZE then
    .panic "uvm_init: page overflow!\n"
  else do
    match ← kalloc with
    | none => .panic "uvm_init: no page"
    | some mem =>
        perform (.fill mem 0)
        let _ ← mapRegion pgdir 0 PGSIZE mem (PTE_USER ||| PTE_RW ||| PTE_PAGE)
        perform (.write mem 0 binary)

/-- The loop of `uvm_dealloc` from `a` on. -/
def uvmDeallocLoop (pgdir oldsz : Nat) : Nat → Nat → Prog (Act Pid) Unit
  | 0, _ => return ()
  | fuel + 1, a =>
      if a < oldsz then do
        match ← pgdirWalk pgdir a false with
        | none => uvmDeallocLoop pgdir oldsz fuel (ROUNDUP a BKSIZE + PGSIZE)
        | some (table, i) =>
            let pte ← perform (.word table i)
            if present pte then
              if pageOf pte = 0 then
                .panic "uvm_dealloc\n"
              else
                kfree kernelEnd (pageOf pte)
                perform (.setWord table i 0)
                uvmDeallocLoop pgdir oldsz fuel (a + PGSIZE)
            else
              uvmDeallocLoop pgdir oldsz fuel (a + PGSIZE)
      else
        return ()

/-- Deallocate user pages to bring the process size from oldsz to newsz. -/
def uvmDealloc (pgdir oldsz newsz : Nat) : Prog (Act Pid) Nat :=
  if newsz ≥ oldsz then
    return oldsz
  else do
    uvmDeallocLoop kernelEnd pgdir oldsz (oldsz / PGSIZE + 1) (ROUNDUP newsz PGSIZE)
    return newsz

/-- The loop of `uvm_alloc` from `a` on; `false` when memory runs out. -/
def uvmAllocLoop (pgdir oldsz newsz : Nat) : Nat → Nat → Prog (Act Pid) Bool
  | 0, _ => return true
  | fuel + 1, a =>
      if a < newsz then do
        match ← kalloc with
        | none =>
            let _ ← uvmDealloc kernelEnd pgdir newsz oldsz
            return false
        | some mem =>
            perform (.fill mem 0)
            if ← mapRegion pgdir a PGSIZE mem (PTE_RW ||| PTE_USER) then
              uvmAllocLoop pgdir oldsz newsz fuel (a + PGSIZE)
            else
              let _ ← uvmDealloc kernelEnd pgdir newsz oldsz
              kfree kernelEnd mem
              return false
      else
        return true

/--
Allocate page tables and physical memory to grow process from oldsz to newsz.
Returns new size or 0 on error.
-/
def uvmAlloc (pgdir oldsz newsz : Nat) : Prog (Act Pid) Nat :=
  if newsz ≥ UADDR_SZ then
    return 0
  else if newsz < oldsz then
    return oldsz
  else do
    if ← uvmAllocLoop kernelEnd pgdir oldsz newsz (newsz / PGSIZE + 1)
        (ROUNDUP oldsz PGSIZE) then
      return newsz
    else
      return 0

/-- The loop of `copyuvm` from `i` on. -/
def copyuvmLoop (pgdir newPgdir sz : Nat) : Nat → Nat → Prog (Act Pid) (Option Nat)
  | 0, _ => return some newPgdir
  | fuel + 1, i =>
      if i < sz then do
        match ← pgdirWalk pgdir i false with
        | none => .panic "copyuvm\n"
        | some (table, j) =>
            let pte ← perform (.word table j)
            if pte &&& (PTE_PAGE ||| PTE_P) = 0 then
              .panic "copyuvm\n"
            else
              match ← kalloc with
              | none =>
                  kfree kernelEnd newPgdir
                  return none
              | some page =>
                  perform (.copy page (pageOf pte))
                  if ← mapRegion newPgdir i PGSIZE page
                      (pte &&& (PTE_USER ||| PTE_RO)) then
                    copyuvmLoop pgdir newPgdir sz fuel (i + PGSIZE)
                  else
                    kfree kernelEnd newPgdir
                    return none
      else
        return some newPgdir

/-- Given a parent process's page table, create a copy of it for a child. -/
def copyuvm (pgdir sz : Nat) : Prog (Act Pid) (Option Nat) := do
  let newPgdir ← pgdirInit
  copyuvmLoop kernelEnd pgdir newPgdir sz (sz / PGSIZE + 1) 0

end Free

/-! ## User memory -/

/-- Clear PTE_USER on a page. -/
def clearpteu (pgdir uva : Nat) : Prog (Act Pid) Unit := do
  match ← pgdirWalk pgdir uva false with
  | none => .panic "clearpteu\n"
  | some (table, i) =>
      let pte ← perform (.word table i)
      perform (.setWord table i (if user pte then pte - PTE_USER else pte))

/--
Map user virtual address to kernel address.  The entry is read without a check
that there is one.
-/
def uva2ka (pgdir uva : Nat) : Prog (Act Pid) (Option Nat) := do
  match ← pgdirWalk pgdir uva false with
  | none => .panic "uva2ka: null page table entry"
  | some (table, i) =>
      let pte ← perform (.word table i)
      return if present pte && user pte then some (pageOf pte) else none

/-- The loop of `copyout`; `false` for -1. -/
def copyoutLoop (pgdir : Nat) : Nat → Nat → List UInt8 → Prog (Act Pid) Bool
  | 0, _, _ => return true
  | fuel + 1, va, buf =>
      if buf.length = 0 then
        return true
      else do
        let va0 := ROUNDDOWN va PGSIZE
        match ← uva2ka pgdir va0 with
        | none => return false
        | some pa0 =>
            let n := min (PGSIZE - (va - va0)) buf.length
            perform (.write pa0 (va - va0) (buf.take n))
            copyoutLoop pgdir fuel ((va0 + PGSIZE) % 2 ^ 64) (buf.drop n)

/-- Copy bytes to user address va in page table pgdir. -/
def copyout (pgdir va : Nat) (buf : List UInt8) : Prog (Act Pid) Bool :=
  copyoutLoop pgdir (buf.length / PGSIZE + 2) va buf

/-- `readi` on a regular file: the bytes it copies, `none` for -1. -/
def readi (ip : Fs.File) (off n : Nat) : Option (List UInt8) :=
  (Fs.Files.readCount ip.size.toNat off n).map (ip.slice off)

/-- The loop of `uvm_load` over the pages after the first. -/
def uvmLoadLoop (pgdir addr : Nat) (ip : Fs.File) (offset sz : Nat) :
    Nat → Nat → Prog (Act Pid) Bool
  | 0, _ => return true
  | fuel + 1, i =>
      if i < sz then do
        match ← pgdirWalk pgdir (addr + i) false with
        | none => .panic "uvm_load: address should exist\n"
        | some (table, j) =>
            let pte ← perform (.word table j)
            let n := min (sz - i) PGSIZE
            match readi ip (offset + i) n with
            | none => return false
            | some bytes =>
                perform (.write (pageOf pte) 0 bytes)
                if bytes.length ≠ n then
                  return false
                else
                  uvmLoadLoop pgdir addr ip offset sz fuel (i + PGSIZE)
      else
        return true

/-- Load a program segment into pgdir; `false` for -1. -/
def uvmLoad (pgdir addr : Nat) (ip : Fs.File) (offset sz : Nat) : Prog (Act Pid) Bool :=
  if addr % PGSIZE ≠ offset % PGSIZE then
    .panic "uvm_load: addr must be page aligned\n"
  else do
    match ← pgdirWalk pgdir (ROUNDDOWN addr PGSIZE) false with
    | none => .panic "loaduvm: addr 0x%p should exist\n"
    | some (table, j) =>
        let pte ← perform (.word table j)
        let start := addr % PGSIZE
        let n := min sz (PGSIZE - start)
        match readi ip offset n with
        | none => return false
        | some bytes =>
            perform (.write (pageOf pte) start bytes)
            if bytes.length ≠ n then
              return false
            else
              uvmLoadLoop pgdir (addr + n) ip (offset + n) (sz - n) (sz / PGSIZE + 1) 0

end PiKernel.Vm
