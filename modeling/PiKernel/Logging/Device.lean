import PiKernel.Base.Params
import PiKernel.Conc.Prog
import Mathlib.Data.Finset.Basic

/-!
# The block device under the log

`log.c` works on blocks through `bread`, `bwrite` and `brelse`.  This module
gives those calls their meaning on a block device with two contents for every
block: `view` is what a process that holds the block reads and writes, `disk`
is what survives a crash.  `PiKernel.Bio` proves that the buffer cache of `bio.c`
implements this device, except that `bget` panics when it runs out of buffers:
`bread` of this device never does.

The critical sections on `log.lock` are single actions on `struct log`.
Some fields are history: they record what was logged and written, and no
action reads them.
-/

namespace PiKernel.Logging

open PiKernel.Bytes
open PiKernel.Conc

/-! ## `struct logheader` -/

/-- `struct logheader`: the home block number of every logged block. -/
structure LogHeader where
  n : Nat
  block : Nat → Nat

namespace LogHeader

/-- The logged block numbers, in log order. -/
def blocks (lh : LogHeader) : List Nat :=
  (List.range lh.n).map lh.block

/-- The loop of `log_write` that looks for `b`; it stops at `n` without it. -/
def find (lh : LogHeader) (b : Nat) : Nat :=
  ((List.range lh.n).find? fun i => lh.block i == b).getD lh.n

/-- The assignments of `log_write`, with log absorption. -/
def absorb (lh : LogHeader) (b : Nat) : LogHeader :=
  let i := lh.find b
  { n := if i = lh.n then lh.n + 1 else lh.n
    block := Function.update lh.block i b }

/-- Offset of `block[i]` in the header block. -/
def entry (i : Nat) : Nat := 4 + 4 * i

/-- The assignments of `read_head`: the count, then the entries below it. -/
def assign (lh source : LogHeader) : LogHeader where
  n := source.n
  block i := if i < source.n then source.block i else lh.block i

/-- The header in a block: a negative count runs no loop, as a count of zero does. -/
def decode (data : Block) : LogHeader where
  n := if readLE data 0 4 < 2 ^ 31 then readLE data 0 4 else 0
  block i := readLE data (entry i) 4

/-- `write_head`: the count, then the entries below it. -/
def encode (lh : LogHeader) (data : Block) : Block :=
  (List.range lh.n).foldl
    (fun data i => writeLE data (entry i) 4 (lh.block i))
    (writeLE data 0 4 lh.n)

end LogHeader

/-- `struct log`, without its spinlock and its device number. -/
structure Log where
  start : Nat
  size : Nat
  outstanding : Nat
  committing : Bool
  lh : LogHeader

/-- The space test of `begin_op`: this op might exhaust log space. -/
def Log.full (log : Log) : Bool :=
  log.lh.n + (log.outstanding + 1) * MAXOPBLOCKS > LOGSIZE

/-- The space test of `log_write`. -/
def Log.tooBig (log : Log) : Bool :=
  log.lh.n ≥ LOGSIZE || log.lh.n + 1 ≥ log.size

/-- The blocks of the log: the header, then `size - 1` slots. -/
def Log.Area (log : Log) (b : Nat) : Prop :=
  log.start ≤ b ∧ b < log.start + log.size

instance (log : Log) (b : Nat) : Decidable (log.Area b) :=
  inferInstanceAs (Decidable (_ ∧ _))

/-! ## The shared state -/

variable {Pid : Type} [DecidableEq Pid]

/--
`struct log` and what the processes do with it.  `current` and `finished` are
history.
-/
structure Ops (Pid : Type) where
  log : Log
  /-- `SLEEPING` on `&log`. -/
  asleep : Pid → Bool
  /-- Blocks logged so far by the operation of a process. -/
  current : Pid → Option (Finset Nat)
  /-- Blocks of each operation that has ended since the last commit. -/
  finished : List (Finset Nat)

/-- The state shared by all processes. -/
structure State (Pid : Type) extends Ops Pid where
  view : Nat → Block
  disk : Nat → Block
  holder : Nat → Option Pid
  /-- `B_DIRTY` of the buffer that caches the block. -/
  dirty : Nat → Bool
  /-- Content of a block when it was last logged. -/
  logged : Nat → Option Block
  /-- Blocks written to disk, the latest first. -/
  written : List Nat

/-- The actions of `log.c`, one for each critical section or buffer call. -/
inductive Act : Type → Type where
  | bread (b : Nat) : Act Unit
  | load (b : Nat) : Act Block
  | store (b : Nat) (data : Block) : Act Unit
  | bwrite (b : Nat) : Act Unit
  | brelse (b : Nat) : Act Unit
  | readLog : Act Log
  | setHeader (lh : LogHeader) : Act Unit
  | clearHeader : Act Unit
  | beginOp : Act Unit
  | endOp : Act (Option Bool)
  | endCommit : Act Unit
  | absorb (b : Nat) : Act Unit

namespace Ops

/-- `wakeup(&log)`. -/
def wakeup (s : Ops Pid) : Ops Pid :=
  { s with asleep := fun _ => false }

/-- One iteration of the loop of `begin_op`, up to `sleep` or `break`. -/
def beginOp (p : Pid) (s : Ops Pid) : Outcome Unit (Ops Pid) :=
  if s.asleep p then
    .blocked
  else if s.log.committing || s.log.full then
    .again { s with asleep := Function.update s.asleep p true }
  else
    .done ()
      { s with
        log := { s.log with outstanding := s.log.outstanding + 1 }
        current := Function.update s.current p (some ∅) }

/--
The first critical section of `end_op`.  It returns `none` for the panic and
otherwise `do_commit`.
-/
def endOp (p : Pid) (s : Ops Pid) : Option Bool × Ops Pid :=
  let ended : Ops Pid :=
    { s with
      log := { s.log with outstanding := s.log.outstanding - 1 }
      current := Function.update s.current p none
      finished := (s.current p).getD ∅ :: s.finished }
  if s.log.committing then
    (none, ended)
  else if ended.log.outstanding = 0 then
    (some true, { ended with log := { ended.log with committing := true } })
  else
    (some false, ended.wakeup)

/-- The second critical section of `end_op`, after `commit`. -/
def endCommit (s : Ops Pid) : Ops Pid :=
  { s.wakeup with
    log := { s.log with committing := false }
    finished := [] }

/-- The critical section of `log_write`, but for `B_DIRTY`. -/
def absorb (p : Pid) (b : Nat) (s : Ops Pid) : Ops Pid :=
  { s with
    log := { s.log with lh := s.log.lh.absorb b }
    current := Function.update s.current p ((s.current p).map (insert b)) }

end Ops

/-- The critical section of `log_write`. -/
def State.absorb (p : Pid) (b : Nat) (s : State Pid) : State Pid :=
  { s with
    toOps := s.toOps.absorb p b
    dirty := Function.update s.dirty b true
    logged := Function.update s.logged b (some (s.view b)) }

/-- The effect of every action. -/
def exec : {β : Type} → Act β → Pid → State Pid → Outcome β (State Pid)
  | _, .bread b, p, s =>
      if s.holder b = none then
        .done () { s with holder := Function.update s.holder b (some p) }
      else
        .blocked
  | _, .load b, _, s => .done (s.view b) s
  | _, .store b data, _, s =>
      .done () { s with view := Function.update s.view b data }
  | _, .bwrite b, _, s =>
      .done ()
        { s with
          disk := Function.update s.disk b (s.view b)
          dirty := Function.update s.dirty b false
          written := b :: s.written }
  | _, .brelse b, _, s =>
      .done () { s with holder := Function.update s.holder b none }
  | _, .readLog, _, s => .done s.log s
  | _, .setHeader lh, _, s =>
      .done () { s with log := { s.log with lh := s.log.lh.assign lh } }
  | _, .clearHeader, _, s =>
      .done () { s with log := { s.log with lh := { s.log.lh with n := 0 } } }
  | _, .beginOp, p, s => (s.toOps.beginOp p).map fun ops => { s with toOps := ops }
  | _, .endOp, p, s =>
      .done (s.toOps.endOp p).1 { s with toOps := (s.toOps.endOp p).2 }
  | _, .endCommit, _, s => .done () { s with toOps := s.toOps.endCommit }
  | _, .absorb b, p, s => .done () (s.absorb p b)

end PiKernel.Logging
