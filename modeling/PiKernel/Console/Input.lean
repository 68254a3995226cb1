import PiKernel.Conc.Protocol
import Mathlib.Data.List.Basic

/-!
# The console

`console_intr` edits a line in a circular buffer and `console_read` takes committed
bytes from it.  Each holds `conslock`; a reader that finds nothing sleeps until a line
is committed.  The state keeps the history of the keys and of the reads.
-/

namespace PiKernel.Console

open PiKernel.Conc
open PiKernel.Conc.Prog (perform)

def INPUT_BUF : Nat := 128

/-- `C(x)`: control-x. -/
def C (x : Char) : UInt8 := UInt8.ofNat (x.toNat - '@'.toNat)

/-- The indices only grow, but for editing and the push-back of `console_read`. -/
structure Input where
  buf : Nat → UInt8
  /-- Read index. -/
  r : Nat
  /-- Write index. -/
  w : Nat
  /-- Edit index. -/
  e : Nat

namespace Input

/-- `input.buf[i % INPUT_BUF]`. -/
def get (input : Input) (i : Nat) : UInt8 := input.buf (i % INPUT_BUF)

/-- The loop for control-U. -/
def killLine : Nat → Input → Input
  | 0, input => input
  | fuel + 1, input =>
      if input.e ≠ input.w ∧ input.get (input.e - 1) ≠ 10 then
        killLine fuel { input with e := input.e - 1 }
      else
        input

/-- The body of the loop of `console_intr`, but for the process listing. -/
def key (input : Input) (c : UInt8) : Input :=
  if c = C 'P' then
    input
  else if c = C 'U' then
    killLine (input.e - input.w) input
  else if c = C 'H' ∨ c = 127 then
    if input.e ≠ input.w then { input with e := input.e - 1 } else input
  else if c ≠ 0 ∧ input.e - input.r < INPUT_BUF then
    let c := if c = 13 then 10 else c
    let input := { input with
      buf := Function.update input.buf (input.e % INPUT_BUF) c
      e := input.e + 1 }
    if c = 10 ∨ c = C 'D' ∨ input.e = input.r + INPUT_BUF then
      { input with w := input.e }
    else
      input
  else
    input

end Input

/-! ## The system -/

/-- A key arrives, or a reader takes a byte. -/
inductive Event where
  | key (c : UInt8)
  | take

/-- A call of `console_read` that has returned. -/
structure Read where
  size : Nat
  bytes : List UInt8

structure State where
  input : Input
  /-- `thisproc()->killed`. -/
  killed : Bool
  panicked : Bool
  events : List Event
  reads : List Read

/-- What a reader finds. -/
inductive Got where
  | killed
  | eof
  | byte (c : UInt8)

/-- The critical sections; `rest` says that something has been read before. -/
inductive Act : Type → Type where
  | intr (bytes : List UInt8) : Act Unit
  | getc (rest : Bool) : Act Got
  | returned (read : Read) : Act Unit

inductive Party where
  | interrupt
  | reader
  deriving DecidableEq

def exec : {β : Type} → Act β → Party → State → Outcome β State
  | _, .intr bytes, _, s =>
      if s.panicked then
        .blocked
      else
        .done () { s with
          input := bytes.foldl Input.key s.input
          events := s.events ++ bytes.map Event.key }
  | _, .getc rest, _, s =>
      if s.input.r = s.input.w then
        -- A sleeping reader is woken up when a line is committed.
        if s.killed then .done .killed s else .blocked
      else
        let c := s.input.get s.input.r
        let taken := { s with
          input := { s.input with r := s.input.r + 1 }
          events := s.events ++ [.take] }
        if c = C 'D' then
          -- Save ^D for next time, to make sure caller gets a 0-byte result.
          .done .eof (if rest then s else taken)
        else
          .done (.byte c) taken
  | _, .returned read, _, s => .done () { s with reads := s.reads ++ [read] }

/-- The loop of `console_read` with `n` of `target` bytes left; -1 if killed. -/
def readLoop (target : Nat) : Nat → Prog Act (Option (List UInt8))
  | 0 => return some []
  | n + 1 => do
      match ← perform (.getc (n + 1 < target)) with
      | .killed => return none
      | .eof => return some []
      | .byte c =>
          if c = 10 then
            return some [c]
          else
            return (← readLoop target n).map (c :: ·)

/-- A call of `console_read`; nothing is read if the size is not positive. -/
def consoleRead (size : Int) : Prog Act Unit := do
  match ← readLoop size.toNat size.toNat with
  | none => return
  | some bytes => perform (.returned ⟨size.toNat, bytes⟩)

/-- `console_intr`; the handler of control-P is not implemented. -/
def consoleIntr (bytes : List UInt8) : Prog Act Unit := do
  perform (.intr bytes)
  if C 'P' ∈ bytes then
    .panic "unimplemented"

/-- Batches of keys at any time, and one call of `console_read` after the other. -/
def system : System Act Party State where
  exec := exec
  task _ party program :=
    match party with
    | .interrupt => ∃ bytes, C 'P' ∉ bytes ∧ program = consoleIntr bytes
    | .reader => ∃ size, program = consoleRead size

/-- Nothing has been typed, and no process is ever killed. -/
def booted : Config Act Party State where
  shared := ⟨⟨fun _ => 0, 0, 0, 0⟩, false, false, [], []⟩
  prog _ := .ret ()

end PiKernel.Console
