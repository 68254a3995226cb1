import PiKernel.Base.Params
import PiKernel.Conc.Protocol
import PiKernel.Conc.Schedule
import Mathlib.Data.List.Basic

/-!
# The SD card driver

`sdrw` puts a locked buffer at the end of a queue and sleeps until the interrupt handler
has finished the request.  The handler takes `sdlock` as well.  Both start requests, and
`sd_start` panics when the controller does not do as it should; then `sdlock` is never
released.  The log lists what has happened to the requests.
-/

namespace PiKernel.Sd

open PiKernel.Conc
open PiKernel.Conc.Prog (perform)

def INT_DATA_DONE : UInt32 := 0x00000002
def INT_READ_RDY : UInt32 := 0x00000020

/-- `B_VALID` and `B_DIRTY`. -/
structure Flags where
  valid : Bool
  dirty : Bool
  deriving DecidableEq

/-- The buffer has been read or written: `(flags & (B_VALID | B_DIRTY)) == B_VALID`. -/
def Flags.done (flags : Flags) : Bool := flags.valid && !flags.dirty

/-- What happens to the requests. -/
inductive Event (Pid Buf : Type) where
  | queued (p : Pid) (b : Buf)
  /-- `sd_start` for a new head of the queue. -/
  | start (b : Buf) (write : Bool)
  /-- `sd_start` once more. -/
  | restart (b : Buf) (write : Bool) (i : UInt32)
  | completed (b : Buf) (write : Bool) (i : UInt32)
  | returned (p : Pid) (b : Buf)
  deriving DecidableEq

/-- What the controller does while a critical section runs that may start a request. -/
structure Reply where
  /-- The bits of `EMMC_INTERRUPT` that come up before the first test of `sd_start`. -/
  raised : UInt32
  /-- `sdSendCommandA` fails. -/
  refused : Bool
  /-- `INT_WRITE_RDY` does not come in time. -/
  late : Bool
  /-- The bits that are up after `INT_WRITE_RDY`. -/
  stray : UInt32
  deriving DecidableEq

/-- The controller takes the command and the data. -/
def Reply.ok : Reply := ⟨0, false, false, 0⟩

/-- The buffers, the controller and the log. -/
structure Shared (Pid Buf : Type) where
  flags : Buf → Flags
  data : Buf → Block
  /-- The holder of the lock of a buffer. -/
  holder : Buf → Option Pid
  /-- The register `EMMC_INTERRUPT`. -/
  interrupt : UInt32
  /-- A processor has panicked, and keeps `sdlock`. -/
  stopped : Bool
  log : List (Event Pid Buf)

structure State (Pid Buf : Type) extends Shared Pid Buf where
  sdque : List Buf

/--
An interrupt comes with the bits of the register that have come up since the last one, and
with what the data register then gives.  A critical section returns the message of its panic.
-/
inductive Act (Buf : Type) : Type → Type where
  | lock (b : Buf) : Act Buf Unit
  | setFlags (b : Buf) (flags : Flags) : Act Buf Unit
  | flags (b : Buf) : Act Buf Flags
  | enqueue (b : Buf) (reply : Reply) : Act Buf (Option String)
  | await (b : Buf) : Act Buf Unit
  | unlock (b : Buf) : Act Buf Unit
  | intr (i : UInt32) (words : Block) (reply : Reply) : Act Buf (Option String)

/-- The handler runs on any CPU. -/
inductive Party (Pid : Type) where
  | interrupt
  | proc (p : Pid)
  deriving DecidableEq

/-- The interrupt passes the assertion of the handler. -/
def Accepted (i : UInt32) : Prop := i &&& INT_DATA_DONE ≠ 0 ∨ i &&& INT_READ_RDY ≠ 0

instance (i : UInt32) : Decidable (Accepted i) :=
  inferInstanceAs (Decidable (_ ∨ _))

section Code

variable {Pid Buf : Type}

namespace Shared

variable (s : Shared Pid Buf)

def panic (message : String) : Option String × Shared Pid Buf :=
  (some message, { s with stopped := true })

/-- Start the request for `b`. -/
def sdStart (b : Buf) (event : Event Pid Buf) (reply : Reply) :
    Option String × Shared Pid Buf :=
  let write := (s.flags b).dirty
  if s.interrupt ≠ 0 then
    s.panic "emmc interrupt flag should be empty: 0x%x. "
  else if reply.refused then
    s.panic "* EMMC send command error."
  else if write = true ∧ reply.late = true then
    s.panic "* EMMC ERROR: Timeout waiting for ready to write\n"
  else if write = true ∧ reply.stray ≠ 0 then
    panic { s with interrupt := reply.stray } "%d "
  else
    (none, { s with log := s.log ++ [event] })

variable [DecidableEq Buf]

/-- The data of a read, and the flags of a request that is done. -/
def finish (b : Buf) (i : UInt32) (words : Block) : Shared Pid Buf :=
  let write := (s.flags b).dirty
  { s with
    data := if write then s.data else Function.update s.data b words
    flags := Function.update s.flags b ⟨true, false⟩
    log := s.log ++ [.completed b write i] }

variable [DecidableEq Pid]

/-- The critical sections which leave the queue alone. -/
def exec : {β : Type} → Act Buf β → Party Pid → Shared Pid Buf → Outcome β (Shared Pid Buf)
  | _, .lock b, .proc p, s =>
      if s.holder b = none then
        .done () { s with holder := Function.update s.holder b (some p) }
      else
        .blocked
  | _, .setFlags b flags, .proc _, s =>
      .done () { s with flags := Function.update s.flags b flags }
  | _, .flags b, .proc _, s => .done (s.flags b) s
  | _, .await b, .proc p, s =>
      -- Asleep until the handler wakes the process up.
      if (s.flags b).done ∧ s.stopped = false then
        .done () { s with log := s.log ++ [.returned p b] }
      else
        .blocked
  | _, .unlock b, .proc _, s =>
      .done () { s with holder := Function.update s.holder b none }
  | _, _, _, _ => .blocked

end Shared

namespace State

variable (s : State Pid Buf)

def sdStart (b : Buf) (event : Event Pid Buf) (reply : Reply) :
    Option String × State Pid Buf :=
  ((s.toShared.sdStart b event reply).1,
    { s with toShared := (s.toShared.sdStart b event reply).2 })

/-- The request is at the end of the queue. -/
def queue (p : Pid) (b : Buf) : State Pid Buf :=
  { s with
    sdque := s.sdque ++ [b]
    log := s.log ++ [.queued p b] }

/-- `sdrw` up to its loop. -/
def sdrw (p : Pid) (b : Buf) (reply : Reply) : Option String × State Pid Buf :=
  if s.sdque = [] then
    { s.queue p b with interrupt := s.interrupt ||| reply.raised }.sdStart b
      (.start b (s.flags b).dirty) reply
  else
    (none, s.queue p b)

variable [DecidableEq Buf]

/-- The request at the head of the queue is done. -/
def complete (b : Buf) (rest : List Buf) (i : UInt32) (words : Block) (reply : Reply) :
    Option String × State Pid Buf :=
  let completed : State Pid Buf := { toShared := s.finish b i words, sdque := rest }
  match rest with
  | [] => (none, completed)
  | next :: _ => completed.sdStart next (.start next (completed.flags next).dirty) reply

/-- The interrupt handler, when the register has the value `i`. -/
def sdIntr (i : UInt32) (words : Block) (reply : Reply) : Option String × State Pid Buf :=
  match s.sdque with
  -- The register is not cleared.
  | [] => (none, { s with interrupt := i })
  | b :: rest =>
      if Accepted i then
        let write := (s.flags b).dirty
        let cleared := { s with interrupt := reply.raised }
        -- The second operand is a constant other than zero.
        if ¬ (write = true ∧ i = INT_DATA_DONE ∨ write = false ∧ INT_READ_RDY ≠ 0) then
          cleared.sdStart b (.restart b write i) reply
        else
          cleared.complete b rest i words reply
      else
        let failed := { s with interrupt := i }.panic "unexpected sd intr"
        (failed.1, { s with toShared := failed.2 })

end State

variable [DecidableEq Buf] [DecidableEq Pid]

/-- The critical sections of the lock of a buffer and of `sdlock`. -/
def exec : {β : Type} → Act Buf β → Party Pid → State Pid Buf → Outcome β (State Pid Buf)
  | _, .enqueue b reply, .proc p, s =>
      if s.stopped then .blocked else .done (s.sdrw p b reply).1 (s.sdrw p b reply).2
  | _, .intr i words reply, .interrupt, s =>
      if s.stopped then
        .blocked
      else
        .done (s.sdIntr (s.interrupt ||| i) words reply).1
          (s.sdIntr (s.interrupt ||| i) words reply).2
  | _, action, party, s =>
      (Shared.exec action party s.toShared).map fun shared => { s with toShared := shared }

/-- Sync a buffer with the disk. -/
def sdrw (b : Buf) (reply : Reply) : Prog (Act Buf) Unit := do
  let flags ← perform (.flags b)
  if flags.done then
    .panic "sdrw: nothing to do"
  else
    match ← perform (.enqueue b reply) with
    | some message => .panic message
    | none => perform (.await b)

/-- A process locks a buffer and reads or writes it some number of times. -/
def use (b : Buf) (requests : List (Flags × Reply)) : Prog (Act Buf) Unit := do
  perform (.lock b)
  requests.forM fun request => do
    perform (.setFlags b request.1)
    sdrw b request.2
  perform (.unlock b)

def sdIntr (i : UInt32) (words : Block) (reply : Reply) : Prog (Act Buf) Unit := do
  match ← perform (.intr i words reply) with
  | some message => .panic message
  | none => return ()

/--
Any use of the buffers by processes that lock them, any accepted interrupts, and a
controller that does anything.
-/
def system : System (Act Buf) (Party Pid) (State Pid Buf) where
  exec := exec
  task _ party program :=
    match party with
    | .interrupt => ∃ i words reply, Accepted i ∧ program = sdIntr i words reply
    | .proc _ => ∃ b requests, program = use b requests

/-- Nothing has been requested, and the register is empty. -/
def idle (flags : Buf → Flags) (data : Buf → Block) :
    Config (Act Buf) (Party Pid) (State Pid Buf) where
  shared := ⟨⟨flags, data, fun _ => none, 0, false, []⟩, []⟩
  prog _ := .ret ()

end Code

end PiKernel.Sd
