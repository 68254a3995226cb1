import PiKernel.Sd.Driver
import Mathlib.Data.List.Infix
import Mathlib.Data.List.Nodup

/-!
# The queue of requests

In every run the queue holds the requests that have not been completed, in the order of the
calls, and a process returns when its request has been completed once.  That requests are
started one at a time, and completed by their own interrupt, needs the controller to keep
to the order that the driver expects: a read is completed by any interrupt, and one that
comes while the queue is empty stays in the register, on which the next `sd_start` panics.
-/

namespace PiKernel.Sd

open PiKernel.Conc

variable {Pid Buf : Type}

/-! ## The log -/

def queuedOf (log : List (Event Pid Buf)) : List Buf :=
  log.filterMap fun
    | .queued _ b => some b
    | _ => none

def startedOf (log : List (Event Pid Buf)) : List Buf :=
  log.filterMap fun
    | .start b _ => some b
    | _ => none

def completedOf (log : List (Event Pid Buf)) : List Buf :=
  log.filterMap fun
    | .completed b _ _ => some b
    | _ => none

theorem queuedOf_append (log more : List (Event Pid Buf)) :
    queuedOf (log ++ more) = queuedOf log ++ queuedOf more :=
  List.filterMap_append

theorem startedOf_append (log more : List (Event Pid Buf)) :
    startedOf (log ++ more) = startedOf log ++ startedOf more :=
  List.filterMap_append

theorem completedOf_append (log more : List (Event Pid Buf)) :
    completedOf (log ++ more) = completedOf log ++ completedOf more :=
  List.filterMap_append

variable [DecidableEq Buf]

/-- The last call of `sdrw` on the buffer, and how often it has been completed since. -/
def callStep (b : Buf) : Option (Pid × Nat) → Event Pid Buf → Option (Pid × Nat)
  | call, .queued p b' => if b' = b then some (p, 0) else call
  | call, .completed b' _ _ => if b' = b then call.map fun c => (c.1, c.2 + 1) else call
  | call, _ => call

def lastCall (b : Buf) (log : List (Event Pid Buf)) : Option (Pid × Nat) :=
  log.foldl (callStep b) none

theorem lastCall_append (b : Buf) (log : List (Event Pid Buf)) (event : Event Pid Buf) :
    lastCall b (log ++ [event]) = callStep b (lastCall b log) event := by
  rw [lastCall, List.foldl_append, lastCall]
  rfl

/-- The interrupt that a request waits for. -/
def kind (write : Bool) : UInt32 := if write then INT_DATA_DONE else INT_READ_RDY

/-- Starts and restarts. -/
def Event.isStart : Event Pid Buf → Bool
  | .start _ _ | .restart _ _ _ => true
  | _ => false

/-- Calls of `sdrw` and returns. -/
def Event.isCall : Event Pid Buf → Bool
  | .queued _ _ | .returned _ _ => true
  | _ => false

/--
No interrupt is left in the register when a request comes to the empty queue, an interrupt
of a read is its own, and the controller takes what is started.
-/
def proper : {β : Type} → Act Buf β → Party Pid → State Pid Buf → Bool
  | _, .enqueue _ reply, _, s => !s.sdque.isEmpty || s.interrupt == 0 && reply == .ok
  | _, .intr i _ reply, _, s =>
      match s.sdque with
      | [] => true
      | b :: _ =>
          let i := s.interrupt ||| i
          decide (Accepted i) && ((s.flags b).dirty || i == INT_READ_RDY) && reply == .ok
  | _, _, _, _ => true

/-! ## What holds in every run -/

/-- What a process does with a buffer. -/
inductive Phase (Buf : Type) where
  | idle
  /-- It has the lock, and may know the flags. -/
  | holds (b : Buf) (known : Option Flags)
  | waits (b : Buf)

/-- The process has the lock of the buffer. -/
def Phase.Has (b : Buf) : Phase Buf → Prop
  | .idle => False
  | .holds b' _ => b' = b
  | .waits b' => b' = b

/-- The log of the requests. -/
structure Logged (log : List (Event Pid Buf)) (sdque : List Buf) : Prop where
  queue : queuedOf log = completedOf log ++ sdque
  returned : ∀ before after p b, log = before ++ .returned p b :: after →
    lastCall b before = some (p, 1)

/-- The invariant of the queue. -/
structure Inv (phase : Pid → Phase Buf) (s : State Pid Buf) : Prop where
  logged : Logged s.log s.sdque
  holder : ∀ p b, s.holder b = some p ↔ (phase p).Has b
  known : ∀ p b flags, phase p = .holds b (some flags) → s.flags b = flags
  nodup : s.sdque.Nodup
  queued : ∀ b, b ∈ s.sdque → (∃ p, phase p = .waits b) ∧ (s.flags b).done = false
  pending : ∀ p b, phase p = .waits b → b ∈ s.sdque → lastCall b s.log = some (p, 0)
  finished : ∀ p b, phase p = .waits b → b ∉ s.sdque →
    lastCall b s.log = some (p, 1) ∧ (s.flags b).done = true

/-- A waiting process is woken up when its request is done. -/
def Act.Ok : {β : Type} → Act Buf β → State Pid Buf → Prop
  | _, .await b, s => b ∉ s.sdque → (s.flags b).done = true
  | _, _, _ => True

/-- The log grows, perhaps by a return. -/
theorem returned_append {log : List (Event Pid Buf)} {event : Event Pid Buf}
    (returned : ∀ before after p b, log = before ++ .returned p b :: after →
      lastCall b before = some (p, 1))
    (here : ∀ p b, event = .returned p b → lastCall b log = some (p, 1)) :
    ∀ before after p b, log ++ [event] = before ++ .returned p b :: after →
      lastCall b before = some (p, 1) := by
  intro before after p b split
  rcases List.eq_nil_or_concat after with rfl | ⟨front, last, rfl⟩
  · have parts := List.append_inj' split rfl
    rw [← parts.1]
    exact here p b (List.singleton_inj.mp parts.2)
  · rw [List.concat_eq_append, ← List.cons_append, ← List.append_assoc] at split
    exact returned before front p b (List.append_inj' split rfl).1

variable [DecidableEq Pid]

def protocol :
    Protocol (system : System (Act Buf) (Party Pid) (State Pid Buf))
      (Pid → Phase Buf) (Phase Buf) where
  inv := Inv
  own phase := fun
    | .proc p => phase p
    | .interrupt => .idle
  ok action _ s := action.Ok s
  mayPanic _ := True
  rest _ mine := mine = .idle

variable {phase : Pid → Phase Buf} {s s' : State Pid Buf} {p : Pid} {b : Buf} {i : UInt32}
  {words : Block} {reply : Reply}

/-- The phase of one process changes. -/
theorem frame (phase : Pid → Phase Buf) (p : Pid) (new : Phase Buf) :
    protocol.Frame (Party.proc p) phase (Function.update phase p new) := by
  intro party other
  cases party with
  | interrupt => rfl
  | proc q =>
    apply Function.update_of_ne
    rintro rfl
    exact other rfl

omit [DecidableEq Pid] in
/-- Only one process has the lock of a buffer. -/
theorem Inv.sole (inv : Inv phase s) {q : Pid} (here : (phase p).Has b) (there : (phase q).Has b) :
    q = p :=
  Option.some.inj (((inv.holder q b).mpr there).symm.trans ((inv.holder p b).mpr here))

omit [DecidableEq Buf] in
theorem Phase.has_holds {mine : Phase Buf} {known : Option Flags} (here : mine = .holds b known) :
    mine.Has b := by
  rw [here]
  exact rfl

omit [DecidableEq Buf] in
theorem Phase.has_waits {mine : Phase Buf} (here : mine = .waits b) : mine.Has b := by
  rw [here]
  exact rfl

omit [DecidableEq Pid] in
/-- A buffer that is only held is not in the queue. -/
theorem Inv.not_queued (inv : Inv phase s) {known : Option Flags}
    (here : phase p = .holds b known) : b ∉ s.sdque := by
  intro member
  obtain ⟨q, waits⟩ := (inv.queued b member).1
  have same := inv.sole (Phase.has_holds here) (Phase.has_waits waits)
  rw [← same, waits] at here
  cases here

/-- A process locks a buffer. -/
theorem Inv.lock (inv : Inv phase s) (here : phase p = .idle) (free : s.holder b = none) :
    Inv (Function.update phase p (.holds b none))
      { s with holder := Function.update s.holder b (some p) } := by
  constructor
  · exact inv.logged
  · intro q b'
    have old := inv.holder q b'
    simp only [Function.update_apply]
    grind [Phase.Has]
  · intro q b' flags holds
    apply inv.known q
    grind
  · exact inv.nodup
  · intro b' member
    obtain ⟨⟨q, waits⟩, undone⟩ := inv.queued b' member
    refine ⟨⟨q, ?_⟩, undone⟩
    grind
  · intro q b' waits
    apply inv.pending
    grind
  · intro q b' waits
    apply inv.finished
    grind

/-- The holder of a buffer sets its flags. -/
theorem Inv.setFlags (inv : Inv phase s) {known : Option Flags}
    (here : phase p = .holds b known) (flags : Flags) :
    Inv (Function.update phase p (.holds b (some flags)))
      { s with flags := Function.update s.flags b flags } := by
  have absent := inv.not_queued here
  have sole : ∀ q, (phase q).Has b → q = p := fun q => inv.sole (Phase.has_holds here)
  constructor
  · exact inv.logged
  · intro q b'
    have old := inv.holder q b'
    simp only [Function.update_apply]
    grind [Phase.Has]
  · intro q b' flags' holds
    have old := inv.known q b' flags'
    have other := sole q
    simp only [Function.update_apply] at holds ⊢
    grind [Phase.Has]
  · exact inv.nodup
  · intro b' member
    obtain ⟨⟨q, waits⟩, undone⟩ := inv.queued b' member
    constructor
    · refine ⟨q, ?_⟩
      grind
    · show (Function.update s.flags b flags b').done = false
      rw [Function.update_of_ne]
      · exact undone
      · rintro rfl
        exact absent member
  · intro q b' waits
    apply inv.pending
    grind
  · intro q b' waits missing
    have waits' : phase q = .waits b' := by grind
    obtain ⟨call, done⟩ := inv.finished q b' waits' missing
    refine ⟨call, ?_⟩
    show (Function.update s.flags b flags b').done = true
    rw [Function.update_of_ne]
    · exact done
    · rintro rfl
      rw [sole q (Phase.has_waits waits'), here] at waits'
      cases waits'

/-- The holder of a buffer gives it back. -/
theorem Inv.unlock (inv : Inv phase s) {known : Option Flags}
    (here : phase p = .holds b known) :
    Inv (Function.update phase p .idle)
      { s with holder := Function.update s.holder b none } := by
  constructor
  · exact inv.logged
  · intro q b'
    have old := inv.holder q b'
    have mine := inv.holder p b'
    have mine' := inv.holder p b
    simp only [Function.update_apply]
    grind [Phase.Has]
  · intro q b' flags holds
    apply inv.known q
    grind
  · exact inv.nodup
  · intro b' member
    obtain ⟨⟨q, waits⟩, undone⟩ := inv.queued b' member
    refine ⟨⟨q, ?_⟩, undone⟩
    grind
  · intro q b' waits
    apply inv.pending
    grind
  · intro q b' waits
    apply inv.finished
    grind

/-- A process sees that its request is done. -/
theorem Inv.awaited (inv : Inv phase s) (here : phase p = .waits b)
    (done : (s.flags b).done = true) :
    Inv (Function.update phase p (.holds b none))
      { s with log := s.log ++ [.returned p b] } := by
  have absent : b ∉ s.sdque := by
    intro member
    rw [(inv.queued b member).2] at done
    cases done
  constructor
  · constructor
    · rw [queuedOf_append, completedOf_append]
      simpa [queuedOf, completedOf] using inv.logged.queue
    · apply returned_append inv.logged.returned
      intro q b' same
      cases same
      exact (inv.finished p b here absent).1
  · intro q b'
    have old := inv.holder q b'
    have mine := inv.holder p b'
    simp only [Function.update_apply]
    grind [Phase.Has]
  · intro q b' flags holds
    apply inv.known q
    grind
  · exact inv.nodup
  · intro b' member
    obtain ⟨⟨q, waits⟩, undone⟩ := inv.queued b' member
    refine ⟨⟨q, ?_⟩, undone⟩
    grind
  · intro q b' waits member
    rw [lastCall_append]
    apply inv.pending q b' _ member
    grind
  · intro q b' waits missing
    rw [lastCall_append]
    apply inv.finished q b' _ missing
    grind

/-- A request at the end of the queue. -/
theorem Inv.queue (inv : Inv phase s) {known : Option Flags} (here : phase p = .holds b known)
    (undone : (s.flags b).done = false) :
    Inv (Function.update phase p (.waits b)) (s.queue p b) := by
  have absent := inv.not_queued here
  have call : ∀ b', lastCall b' (s.queue p b).log =
      if b = b' then some (p, 0) else lastCall b' s.log :=
    fun b' => lastCall_append b' s.log _
  constructor
  · constructor
    · change queuedOf (s.log ++ [.queued p b]) =
        completedOf (s.log ++ [.queued p b]) ++ (s.sdque ++ [b])
      rw [queuedOf_append, completedOf_append, inv.logged.queue]
      simp [queuedOf, completedOf]
    · apply returned_append inv.logged.returned
      intro q b' same
      cases same
  · intro q b'
    have old := inv.holder q b'
    have mine := inv.holder p b'
    simp only [State.queue, Function.update_apply]
    grind [Phase.Has]
  · intro q b' flags holds
    apply inv.known q
    grind
  · show (s.sdque ++ [b]).Nodup
    exact inv.nodup.append (List.nodup_singleton b) (List.disjoint_singleton.mpr absent)
  · intro b' member
    rcases List.mem_append.mp member with old | new
    · obtain ⟨⟨q, waits⟩, undone'⟩ := inv.queued b' old
      refine ⟨⟨q, ?_⟩, undone'⟩
      grind
    · rw [List.mem_singleton.mp new]
      exact ⟨⟨p, Function.update_self ..⟩, undone⟩
  · intro q b' waits member
    rw [call]
    have old := inv.pending q b'
    have sole : phase q = .waits b → q = p := fun waits =>
      inv.sole (Phase.has_holds here) (Phase.has_waits waits)
    have members := List.mem_append.mp member
    grind
  · intro q b' waits missing
    rw [call]
    have old := inv.finished q b'
    have sole : phase q = .waits b → q = p := fun waits =>
      inv.sole (Phase.has_holds here) (Phase.has_waits waits)
    have members := fun member => missing (List.mem_append.mpr member)
    have same : (s.queue p b).flags = s.flags := rfl
    grind

omit [DecidableEq Pid] in
/-- The head of the queue is done. -/
theorem Inv.finish (inv : Inv phase s) {rest : List Buf} (queue : s.sdque = b :: rest)
    (i : UInt32) (words : Block) :
    Inv phase { toShared := s.finish b i words, sdque := rest } := by
  have member : b ∈ s.sdque := by
    rw [queue]
    exact List.mem_cons_self
  have nodup := inv.nodup
  rw [queue, List.nodup_cons] at nodup
  have logged := inv.logged
  rw [queue] at logged
  have call : ∀ b', lastCall b' (s.finish b i words).log =
      if b = b' then (lastCall b' s.log).map fun c => (c.1, c.2 + 1) else lastCall b' s.log :=
    fun b' => lastCall_append b' s.log _
  constructor
  · constructor
    · change queuedOf (s.log ++ [.completed b _ i]) =
        completedOf (s.log ++ [.completed b _ i]) ++ rest
      rw [queuedOf_append, completedOf_append, logged.queue]
      simp [queuedOf, completedOf]
    · apply returned_append logged.returned
      intro q b' same
      cases same
  · exact inv.holder
  · intro q b' flags holds
    have other : b' ≠ b := by
      rintro rfl
      exact inv.not_queued holds member
    show Function.update s.flags b _ b' = flags
    rw [Function.update_of_ne other]
    exact inv.known q b' flags holds
  · exact nodup.2
  · intro b' later
    have other : b' ≠ b := by
      rintro rfl
      exact nodup.1 later
    obtain ⟨waits, undone⟩ := inv.queued b' (by
      rw [queue]
      exact List.mem_cons_of_mem _ later)
    refine ⟨waits, ?_⟩
    show (Function.update s.flags b _ b').done = false
    rw [Function.update_of_ne other]
    exact undone
  · intro q b' waits later
    have other : b ≠ b' := by
      rintro rfl
      exact nodup.1 later
    rw [call, if_neg other]
    apply inv.pending q b' waits
    rw [queue]
    exact List.mem_cons_of_mem _ later
  · intro q b' waits missing
    show _ ∧ (Function.update s.flags b _ b').done = true
    rw [call]
    by_cases same : b = b'
    · subst same
      rw [if_pos rfl, inv.pending q b waits member, Function.update_self]
      exact ⟨rfl, rfl⟩
    · rw [if_neg same, Function.update_of_ne (Ne.symm same)]
      apply inv.finished q b' waits
      rw [queue, List.mem_cons]
      rintro (here | later)
      · exact same here.symm
      · exact missing later

/-! ## Starting a request -/

/-- Only the controller and the starts in the log are concerned. -/
structure Shared.Starts (s s' : Shared Pid Buf) : Prop where
  flags : s'.flags = s.flags
  holder : s'.holder = s.holder
  log : s'.log = s.log ∨ ∃ event, event.isStart = true ∧ s'.log = s.log ++ [event]

omit [DecidableEq Buf] [DecidableEq Pid] in
/-- Whether it panics or not. -/
theorem Shared.sdStart_starts (s : Shared Pid Buf) (b : Buf) {event : Event Pid Buf}
    (start : event.isStart = true) (reply : Reply) :
    s.Starts (s.sdStart b event reply).2 := by
  rw [Shared.sdStart]
  split_ifs
  · exact ⟨rfl, rfl, Or.inl rfl⟩
  · exact ⟨rfl, rfl, Or.inl rfl⟩
  · exact ⟨rfl, rfl, Or.inl rfl⟩
  · exact ⟨rfl, rfl, Or.inl rfl⟩
  · exact ⟨rfl, rfl, Or.inr ⟨event, start, rfl⟩⟩

omit [DecidableEq Pid] in
theorem Inv.start (inv : Inv phase s) (starts : s.toShared.Starts s'.toShared)
    (queue : s'.sdque = s.sdque) : Inv phase s' := by
  have logs : queuedOf s'.log = queuedOf s.log ∧ completedOf s'.log = completedOf s.log ∧
      (∀ b, lastCall b s'.log = lastCall b s.log) ∧ Logged s'.log s.sdque := by
    rcases starts.log with same | ⟨event, start, log⟩
    · rw [same]
      exact ⟨rfl, rfl, fun _ => rfl, inv.logged⟩
    · have queued : queuedOf s'.log = queuedOf s.log := by
        rw [log, queuedOf_append]
        cases event with
        | start | restart => simp [queuedOf]
        | queued | completed | returned => cases start
      have completed : completedOf s'.log = completedOf s.log := by
        rw [log, completedOf_append]
        cases event with
        | start | restart => simp [completedOf]
        | queued | completed | returned => cases start
      refine ⟨queued, completed, fun b => ?_, ?_, ?_⟩
      · rw [log, lastCall_append]
        cases event with
        | start | restart => rfl
        | queued | completed | returned => cases start
      · rw [queued, completed]
        exact inv.logged.queue
      · rw [log]
        apply returned_append inv.logged.returned
        rintro p b rfl
        cases start
  rcases logs with ⟨_, _, call, logged⟩
  constructor
  · rwa [queue]
  · rw [starts.holder]
    exact inv.holder
  · rw [starts.flags]
    exact inv.known
  · rw [queue]
    exact inv.nodup
  · rw [queue, starts.flags]
    exact inv.queued
  · rw [queue]
    intro p b
    rw [call]
    exact inv.pending p b
  · rw [queue, starts.flags]
    intro p b
    rw [call]
    exact inv.finished p b

omit [DecidableEq Pid] in
/-- The register changes. -/
theorem Inv.register (inv : Inv phase s) (value : UInt32) :
    Inv phase { s with interrupt := value } :=
  inv.start ⟨rfl, rfl, Or.inl rfl⟩ rfl

omit [DecidableEq Pid] in
theorem Inv.sdStart (inv : Inv phase s) {event : Event Pid Buf} (start : event.isStart = true) :
    Inv phase (s.sdStart b event reply).2 :=
  inv.start (Shared.sdStart_starts s.toShared b start reply) rfl

/-- A request at the end of the queue, which is started if it is the only one. -/
theorem Inv.sdrw (inv : Inv phase s) {known : Option Flags} (here : phase p = .holds b known)
    (undone : (s.flags b).done = false) :
    Inv (Function.update phase p (.waits b)) (s.sdrw p b reply).2 := by
  have queued := inv.queue here undone
  rw [State.sdrw]
  split
  · apply (queued.register _).sdStart
    exact rfl
  · exact queued

omit [DecidableEq Pid] in
theorem Inv.complete (inv : Inv phase s) {rest : List Buf} (queue : s.sdque = b :: rest) :
    Inv phase (s.complete b rest i words reply).2 := by
  have finished := inv.finish queue i words
  cases rest with
  | nil => exact finished
  | cons next rest =>
    apply finished.sdStart
    exact rfl

omit [DecidableEq Pid] in
theorem Inv.intr (inv : Inv phase s) : Inv phase (s.sdIntr i words reply).2 := by
  rw [State.sdIntr]
  split
  · exact inv.register i
  · rename_i b rest queue
    have cleared := inv.register reply.raised
    dsimp only
    split
    · split
      · apply cleared.sdStart
        exact rfl
      · exact cleared.complete queue
    · exact inv.start ⟨rfl, rfl, Or.inl rfl⟩ rfl

/-! ## What holds when the controller keeps to the order -/

/-- The starts of the requests, of which the last is that of the head of the queue. -/
structure Ordered (log : List (Event Pid Buf)) (sdque : List Buf) : Prop where
  started : startedOf log = completedOf log ++ sdque.take 1
  own : ∀ b write i, .completed b write i ∈ log → i = kind write
  other : ∀ b write i, .restart b write i ∈ log → i ≠ kind write

namespace Ordered

variable {log : List (Event Pid Buf)} {queue : List Buf} {event : Event Pid Buf} {write : Bool}

omit [DecidableEq Buf] [DecidableEq Pid]

theorem call (ordered : Ordered log queue) (call : event.isCall = true) :
    Ordered (log ++ [event]) queue := by
  constructor
  · rw [startedOf_append, completedOf_append, ordered.started]
    cases event with
    | queued | returned => simp [startedOf, completedOf]
    | start | restart | completed => cases call
  · intro b write i member
    rcases List.mem_append.mp member with old | new
    · exact ordered.own b write i old
    · rw [← List.mem_singleton.mp new] at call
      cases call
  · intro b write i member
    rcases List.mem_append.mp member with old | new
    · exact ordered.other b write i old
    · rw [← List.mem_singleton.mp new] at call
      cases call

theorem restart (ordered : Ordered log queue) (other : i ≠ kind write) :
    Ordered (log ++ [.restart b write i]) queue := by
  constructor
  · rw [startedOf_append, completedOf_append, ordered.started]
    simp [startedOf, completedOf]
  · intro b' write' i' member
    apply ordered.own b' write' i'
    simpa using member
  · intro b' write' i' member
    rcases List.mem_append.mp member with old | new
    · exact ordered.other b' write' i' old
    · cases List.mem_singleton.mp new
      exact other

/-- No request is started and unfinished for a moment. -/
theorem complete (ordered : Ordered log (b :: queue)) (own : i = kind write) :
    Ordered (log ++ [.completed b write i]) [] := by
  constructor
  · rw [startedOf_append, completedOf_append, ordered.started]
    simp [startedOf, completedOf]
  · intro b' write' i' member
    rcases List.mem_append.mp member with old | new
    · exact ordered.own b' write' i' old
    · cases List.mem_singleton.mp new
      exact own
  · intro b' write' i' member
    apply ordered.other b' write' i'
    simpa using member

theorem start (ordered : Ordered log []) :
    Ordered (log ++ [.start b write]) (b :: queue) := by
  constructor
  · rw [startedOf_append, completedOf_append, ordered.started]
    simp [startedOf, completedOf]
  · intro b' write' i' member
    apply ordered.own b' write' i'
    simpa using member
  · intro b' write' i' member
    apply ordered.other b' write' i'
    simpa using member

/-- Only the head of the queue has been started. -/
theorem more (ordered : Ordered log (b :: queue)) (more : List Buf) :
    Ordered log (b :: queue ++ more) :=
  ⟨ordered.started, ordered.own, ordered.other⟩

end Ordered

structure Orderly (s : State Pid Buf) : Prop where
  ordered : Ordered s.log s.sdque
  /-- No interrupt is left over for the next request. -/
  register : s.sdque ≠ [] → s.interrupt = 0
  running : s.stopped = false

omit [DecidableEq Buf] [DecidableEq Pid] in
/-- The controller takes the command, and the register is empty. -/
theorem State.sdStart_ok {event : Event Pid Buf} (register : s.interrupt = 0) :
    s.sdStart b event .ok = (none, { s with log := s.log ++ [event] }) := by
  simp [State.sdStart, Shared.sdStart, Reply.ok, register]

namespace Orderly

omit [DecidableEq Buf] [DecidableEq Pid]

theorem sdrw (orderly : Orderly s)
    (met : proper (.enqueue b reply) (.proc p) s = true) : Orderly (s.sdrw p b reply).2 := by
  have called : Ordered (s.log ++ [.queued p b]) s.sdque := orderly.ordered.call rfl
  simp only [proper, Bool.or_eq_true, Bool.and_eq_true, beq_iff_eq] at met
  rw [State.sdrw]
  split
  · rename_i empty
    rw [empty] at met called
    rcases met with never | ⟨register, rfl⟩
    · cases never
    have clear : s.interrupt ||| Reply.ok.raised = 0 := by
      rw [register]
      rfl
    rw [State.sdStart_ok clear]
    refine ⟨?_, fun _ => clear, orderly.running⟩
    change Ordered (s.log ++ [.queued p b] ++ [.start b _]) (s.sdque ++ [b])
    rw [empty]
    exact called.start
  · rename_i some
    refine ⟨?_, fun _ => orderly.register some, orderly.running⟩
    change Ordered (s.log ++ [.queued p b]) (s.sdque ++ [b])
    obtain ⟨head, rest, queue⟩ := List.exists_cons_of_ne_nil some
    rw [queue] at called ⊢
    exact called.more [b]

end Orderly

namespace Orderly

omit [DecidableEq Pid]

theorem complete {rest : List Buf} (orderly : Orderly s) (queue : s.sdque = b :: rest)
    (own : i = kind (s.flags b).dirty) (words : Block) :
    Orderly (s.complete b rest i words .ok).2 := by
  have ordered := orderly.ordered
  rw [queue] at ordered
  have finished := ordered.complete own
  have clear : s.interrupt = 0 := by
    apply orderly.register
    rw [queue]
    exact List.cons_ne_nil b rest
  cases rest with
  | nil => exact ⟨finished, fun _ => clear, orderly.running⟩
  | cons next rest =>
    simp only [State.complete]
    rw [State.sdStart_ok (by exact clear)]
    exact ⟨finished.start, fun _ => clear, orderly.running⟩

theorem intr (orderly : Orderly s)
    (met : proper (.intr i words reply) (.interrupt : Party Pid) s = true) :
    Orderly (s.sdIntr (s.interrupt ||| i) words reply).2 := by
  rw [proper] at met
  rw [State.sdIntr]
  generalize s.interrupt ||| i = i at met
  split
  · rename_i empty
    exact ⟨orderly.ordered, fun some => absurd empty some, orderly.running⟩
  · rename_i b rest queue
    rw [queue] at met
    simp only [Bool.and_eq_true, decide_eq_true_eq, Bool.or_eq_true, beq_iff_eq] at met
    rcases met with ⟨⟨accepted, own⟩, rfl⟩
    -- The register is cleared, and nothing comes up in it.
    have cleared : Orderly { s with interrupt := Reply.ok.raised } :=
      ⟨orderly.ordered, fun _ => rfl, orderly.running⟩
    dsimp only
    rw [if_pos accepted]
    split
    · rename_i wrong
      rw [State.sdStart_ok (by rfl)]
      refine ⟨cleared.ordered.restart ?_, fun _ => rfl, orderly.running⟩
      rintro rfl
      apply wrong
      cases dirty : (s.flags b).dirty with
      | true => exact Or.inl ⟨rfl, rfl⟩
      | false => exact Or.inr ⟨rfl, by decide⟩
    · rename_i right
      refine cleared.complete queue ?_ words
      change i = kind (s.flags b).dirty
      cases dirty : (s.flags b).dirty with
      | true =>
        rw [dirty] at right
        rcases not_not.mp right with ⟨_, done⟩ | ⟨read, _⟩
        · exact done
        · cases read
      | false =>
        rw [dirty] at own
        rcases own with write | ready
        · cases write
        · exact ready

end Orderly

omit [DecidableEq Pid] in
/--
An interrupt at the empty queue stays in the register.  The next request is not started:
its process panics, and `sdlock` is never released.
-/
theorem State.leftover_panics (empty : s.sdque = []) (left : i ≠ 0) (reply' : Reply) :
    ∃ stopped : State Pid Buf,
      (s.sdIntr i words reply).2.sdrw p b reply' =
        (some "emmc interrupt flag should be empty: 0x%x. ", stopped) ∧
      stopped.stopped = true ∧ stopped.sdque = [b] ∧
      stopped.log = s.log ++ [.queued p b] := by
  have waiting : (s.sdIntr i words reply).2 = { s with interrupt := i } := by
    rw [State.sdIntr, empty]
  have some : i ||| reply'.raised ≠ 0 := by
    intro none
    apply left
    grind
  rw [waiting, State.sdrw, if_pos (by exact empty), State.sdStart, Shared.sdStart,
    if_pos (by exact some)]
  refine ⟨_, rfl, rfl, ?_, rfl⟩
  rw [Shared.panic, State.queue, empty]
  rfl

omit [DecidableEq Pid] in
/-- Every step that meets the condition keeps the order. -/
theorem Orderly.exec {β : Type} {action : Act Buf β} {party : Party Pid} {value : β}
    (orderly : Orderly s) (met : proper action party s = true)
    (effect : Sd.exec action party s = .done value s') : Orderly s' := by
  cases party with
  | interrupt =>
    cases action with
    | intr i words reply =>
      simp only [Sd.exec, orderly.running, Bool.false_eq_true, if_false] at effect
      cases effect
      exact orderly.intr met
    | _ => cases effect
  | proc p =>
    cases action with
    | enqueue b reply =>
      simp only [Sd.exec, orderly.running, Bool.false_eq_true, if_false] at effect
      cases effect
      exact orderly.sdrw met
    | lock b =>
      simp only [Sd.exec, Shared.exec] at effect
      split at effect <;> cases effect
      exact ⟨orderly.ordered, orderly.register, orderly.running⟩
    | await b =>
      simp only [Sd.exec, Shared.exec] at effect
      split at effect <;> cases effect
      exact ⟨orderly.ordered.call rfl, orderly.register, orderly.running⟩
    | intr i words reply => cases effect
    | _ =>
      cases effect
      exact ⟨orderly.ordered, orderly.register, orderly.running⟩

omit [DecidableEq Pid] in
/-- No process sleeps inside an action. -/
theorem Shared.exec_again {β : Type} {action : Act Buf β} {party : Party Pid}
    {s s' : Shared Pid Buf} : Shared.exec action party s ≠ .again s' := by
  intro effect
  cases party <;> cases action <;> simp only [Shared.exec, reduceCtorEq] at effect <;>
    split at effect <;> cases effect

omit [DecidableEq Pid] in
theorem exec_again {β : Type} {action : Act Buf β} {party : Party Pid} :
    Sd.exec action party s ≠ .again s' := by
  intro effect
  have never : (Shared.exec action party s.toShared).map (fun shared =>
      { s with toShared := shared }) ≠ .again s' := by
    intro mapped
    obtain ⟨shared, again⟩ := Outcome.map_again mapped
    exact Shared.exec_again again
  cases party <;> cases action <;> simp only [Sd.exec] at effect <;>
    first
    | exact never effect
    | (split at effect <;> cases effect)

end PiKernel.Sd
