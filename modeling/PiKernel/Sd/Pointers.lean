import PiKernel.Base.Linked
import PiKernel.Conc.Simulation
import PiKernel.Sd.Requests

/-!
# The queue of the SD card driver in memory

The queue is a circular list of `struct list_head`, which are fields of the buffers.  The
driver that works on its pointers refines the one that works on a sequence: in every run
the pointers lead from `sdque` through the buffers of the queue, in their order, and back.
-/

namespace PiKernel.Sd

open PiKernel.Conc

/-! ## Lists of `struct list_head` -/

/-- A pointer to a `struct list_head`. -/
inductive ListHead (Buf : Type) where
  | sdque
  /-- `&b->node_buf` -/
  | node_buf (b : Buf)
  | LIST_POISON1
  | LIST_POISON2
  deriving DecidableEq

/-- The fields of every `struct list_head`. -/
structure Links (Buf : Type) where
  next : ListHead Buf → ListHead Buf
  prev : ListHead Buf → ListHead Buf

namespace Links

variable {Buf : Type} [DecidableEq Buf]

def setNext (l : Links Buf) (list target : ListHead Buf) : Links Buf :=
  { l with next := Function.update l.next list target }

def setPrev (l : Links Buf) (list target : ListHead Buf) : Links Buf :=
  { l with prev := Function.update l.prev list target }

/-- `INIT_LIST_HEAD` -/
def initListHead (l : Links Buf) (list : ListHead Buf) : Links Buf :=
  (l.setNext list list).setPrev list list

/-- `__list_add` -/
def addBetween (l : Links Buf) (new prev next : ListHead Buf) : Links Buf :=
  let l := l.setPrev next new
  let l := l.setNext new next
  let l := l.setPrev new prev
  l.setNext prev new

/-- `list_add_tail` -/
def listAddTail (l : Links Buf) (new head : ListHead Buf) : Links Buf :=
  l.addBetween new (l.prev head) head

/-- `__list_del` -/
def delBetween (l : Links Buf) (prev next : ListHead Buf) : Links Buf :=
  let l := l.setPrev next prev
  l.setNext prev next

/-- `list_del` -/
def listDel (l : Links Buf) (entry : ListHead Buf) : Links Buf :=
  let l := l.delBetween (l.prev entry) (l.next entry)
  let l := l.setNext entry .LIST_POISON1
  l.setPrev entry .LIST_POISON2

/-- `list_empty` -/
def listEmpty (l : Links Buf) (head : ListHead Buf) : Bool :=
  l.next head = head

/-- `list_first_entry`, if the pointer is that of a buffer. -/
def firstEntry (l : Links Buf) (head : ListHead Buf) : Option Buf :=
  match l.next head with
  | .node_buf b => some b
  | _ => none

variable {l : Links Buf} {queue : List Buf} {b : Buf}

/-- The list holds the buffers of the queue in its order. -/
def Holds (l : Links Buf) (queue : List Buf) : Prop :=
  Ring l.next l.prev .sdque (queue.map .node_buf)

omit [DecidableEq Buf] in
theorem node_not_mem (new : b ∉ queue) :
    ListHead.node_buf b ∉ ListHead.sdque :: queue.map .node_buf := by
  intro member
  rcases List.mem_cons.mp member with impossible | listed
  · cases impossible
  · rcases List.mem_map.mp listed with ⟨b', here, same⟩
    cases same
    exact new here

theorem holds_init : (l.initListHead .sdque).Holds [] := by
  have self : ∀ f : ListHead Buf → ListHead Buf,
      Function.update f .sdque .sdque .sdque = .sdque := fun f => Function.update_self ..
  exact Ring.empty (self l.next) (self l.prev)

theorem Holds.listEmpty (holds : l.Holds queue) : l.listEmpty .sdque = decide (queue = []) := by
  cases queue with
  | nil =>
      rw [Links.listEmpty, decide_eq_true rfl]
      exact decide_eq_true (Ring.segment holds).1
  | cons b rest =>
      have first : l.next .sdque = .node_buf b := (Ring.segment holds).1
      rw [Links.listEmpty, first]
      rfl

omit [DecidableEq Buf] in
theorem Holds.next (holds : l.Holds (b :: queue)) : l.next .sdque = .node_buf b :=
  (Ring.segment holds).1

omit [DecidableEq Buf] in
theorem Holds.firstEntry (holds : l.Holds (b :: queue)) : l.firstEntry .sdque = some b := by
  rw [Links.firstEntry, holds.next]

theorem Holds.listAddTail (holds : l.Holds queue) (new : b ∉ queue) :
    (l.listAddTail (.node_buf b) .sdque).Holds (queue ++ [b]) := by
  have outside : ListHead.node_buf b ∉ ListHead.sdque :: (queue.map .node_buf).reverse := by
    rw [List.mem_cons, List.mem_reverse, ← List.mem_cons]
    exact node_not_mem new
  -- seen from the end, the new entry is put behind the head
  have pushed := ((Ring.reverse holds).push outside).reverse
  rw [List.reverse_cons, List.reverse_reverse] at pushed
  have apart : ListHead.sdque ≠ ListHead.node_buf b := fun impossible => by cases impossible
  rw [Holds, List.map_append, List.map_singleton]
  simp only [Links.listAddTail, addBetween, setNext, setPrev]
  rwa [Function.update_comm apart]

theorem Holds.listDel (holds : l.Holds (b :: queue)) :
    (l.listDel (.node_buf b)).Holds queue := by
  have unlinked : Ring (Function.update l.next (l.prev (.node_buf b)) (l.next (.node_buf b)))
      (Function.update l.prev (l.next (.node_buf b)) (l.prev (.node_buf b))) .sdque
      ([] ++ queue.map .node_buf) := Ring.unlink holds
  have nodup : (ListHead.sdque :: ListHead.node_buf b :: queue.map .node_buf).Nodup :=
    Ring.nodup holds
  have other : ∀ w ∈ ListHead.sdque :: queue.map .node_buf, w ≠ ListHead.node_buf b := by
    rintro w member rfl
    rw [List.nodup_cons, List.nodup_cons] at nodup
    rcases List.mem_cons.mp member with impossible | again
    · cases impossible
    · exact nodup.2.1 again
  constructor
  · apply unlinked.segment.congr
    · intro w member
      exact Function.update_of_ne (other w member) ..
    · intro w member
      exact Function.update_of_ne (other w member) ..
  · exact unlinked.nodup

end Links

/-! ## The driver on pointers -/

/-- The state of the driver, with the list in the place of the queue. -/
structure Memory (Pid Buf : Type) extends Shared Pid Buf where
  links : Links Buf

section Code

variable {Pid Buf : Type}

namespace Memory

/-- The state with this queue. -/
def abstract (m : Memory Pid Buf) (queue : List Buf) : State Pid Buf :=
  ⟨m.toShared, queue⟩

def sdStart (m : Memory Pid Buf) (b : Buf) (event : Event Pid Buf) (reply : Reply) :
    Option String × Memory Pid Buf :=
  ((m.toShared.sdStart b event reply).1,
    { m with toShared := (m.toShared.sdStart b event reply).2 })

variable [DecidableEq Buf]

/-- `sdrw` up to its loop. -/
def sdrw (m : Memory Pid Buf) (p : Pid) (b : Buf) (reply : Reply) :
    Option String × Memory Pid Buf :=
  let queued := { m with
    links := m.links.listAddTail (.node_buf b) .sdque
    log := m.log ++ [.queued p b] }
  if m.links.listEmpty .sdque then
    { queued with interrupt := m.interrupt ||| reply.raised }.sdStart b
      (.start b (m.flags b).dirty) reply
  else
    (none, queued)

/-- The request at the head of the list is done. -/
def complete (m : Memory Pid Buf) (b : Buf) (i : UInt32) (words : Block) (reply : Reply) :
    Option String × Memory Pid Buf :=
  let completed : Memory Pid Buf :=
    { toShared := m.finish b i words
      links := m.links.listDel (m.links.next .sdque) }
  if completed.links.listEmpty .sdque then
    (none, completed)
  else
    match completed.links.firstEntry .sdque with
    | some next => completed.sdStart next (.start next (completed.flags next).dirty) reply
    | none => (none, completed)

/-- The interrupt handler, when the register has the value `i`. -/
def sdIntr (m : Memory Pid Buf) (i : UInt32) (words : Block) (reply : Reply) :
    Option String × Memory Pid Buf :=
  if m.links.listEmpty .sdque then
    (none, { m with interrupt := i })
  else if Accepted i then
    match m.links.firstEntry .sdque with
    | none => (none, m)
    | some b =>
        let write := (m.flags b).dirty
        let cleared := { m with interrupt := reply.raised }
        if ¬ (write = true ∧ i = INT_DATA_DONE ∨ write = false ∧ INT_READ_RDY ≠ 0) then
          cleared.sdStart b (.restart b write i) reply
        else
          cleared.complete b i words reply
  else
    let failed := { m with interrupt := i }.panic "unexpected sd intr"
    (failed.1, { m with toShared := failed.2 })

/-- The critical sections, as those on the queue. -/
def exec : {β : Type} → Act Buf β → Party Pid → Memory Pid Buf →
    Outcome β (Memory Pid Buf)
  | _, .enqueue b reply, .proc p, m =>
      if m.stopped then .blocked else .done (m.sdrw p b reply).1 (m.sdrw p b reply).2
  | _, .intr i words reply, .interrupt, m =>
      if m.stopped then
        .blocked
      else
        .done (m.sdIntr (m.interrupt ||| i) words reply).1
          (m.sdIntr (m.interrupt ||| i) words reply).2
  | _, action, party, m =>
      (Shared.exec action party m.toShared).map fun shared => { m with toShared := shared }

end Memory

variable [DecidableEq Buf]

/-- The programs are the same. -/
def pointers : System (Act Buf) (Party Pid) (Memory Pid Buf) where
  exec := Memory.exec
  task m party program := system.task (m.abstract []) party program

/-- `sd_init` has initialized the list. -/
def ready (flags : Buf → Flags) (data : Buf → Block) (links : Links Buf) :
    Config (Act Buf) (Party Pid) (Memory Pid Buf) where
  shared := ⟨⟨flags, data, fun _ => none, 0, false, []⟩, links.initListHead .sdque⟩
  prog _ := .ret ()

end Code

/-! ## The simulation -/

section Simulation

variable {Pid Buf : Type} [DecidableEq Buf] {m m' : Memory Pid Buf} {queue rest : List Buf}
  {p : Pid} {b : Buf} {i : UInt32} {words : Block} {reply : Reply}

/-- The request is at the end of the list. -/
theorem sdrw_abstract (holds : m.links.Holds queue) (reply : Reply) :
    (m.abstract queue).sdrw p b reply =
        ((m.sdrw p b reply).1, (m.sdrw p b reply).2.abstract (queue ++ [b])) ∧
      (m.sdrw p b reply).2.links = m.links.listAddTail (.node_buf b) .sdque := by
  rw [State.sdrw, Memory.sdrw, holds.listEmpty]
  by_cases empty : queue = []
  · rw [if_pos (decide_eq_true empty), if_pos (by exact empty)]
    exact ⟨rfl, rfl⟩
  · have some : (m.abstract queue).sdque ≠ [] := empty
    rw [decide_eq_false empty, if_neg some]
    exact ⟨rfl, rfl⟩

theorem complete_abstract (holds : m.links.Holds (b :: rest)) (i : UInt32) (words : Block)
    (reply : Reply) :
    (m.abstract (b :: rest)).complete b rest i words reply =
        ((m.complete b i words reply).1, (m.complete b i words reply).2.abstract rest) ∧
      (m.complete b i words reply).2.links.Holds rest := by
  have deleted := holds.listDel
  rw [← holds.next] at deleted
  have empty := deleted.listEmpty
  rw [Memory.complete]
  cases rest with
  | nil =>
      simp only [empty, decide_true, if_true]
      exact ⟨rfl, deleted⟩
  | cons next rest =>
      have first := deleted.firstEntry
      simp only [empty, first, reduceCtorEq, decide_false, Bool.false_eq_true, if_false]
      exact ⟨rfl, deleted⟩

/-- The handler does on the pointers what it does on the queue. -/
theorem sdIntr_abstract (holds : m.links.Holds queue) :
    ∃ queue', (m.abstract queue).sdIntr i words reply =
        ((m.sdIntr i words reply).1, (m.sdIntr i words reply).2.abstract queue') ∧
      (m.sdIntr i words reply).2.links.Holds queue' := by
  have empty := holds.listEmpty
  rw [Memory.sdIntr]
  cases queue with
  | nil =>
      rw [if_pos (by simpa using empty)]
      exact ⟨[], rfl, holds⟩
  | cons b rest =>
      let cleared := { m with interrupt := reply.raised }
      have handler : (m.abstract (b :: rest)).sdIntr i words reply =
          if Accepted i then
            if ¬ ((m.flags b).dirty = true ∧ i = INT_DATA_DONE ∨
                (m.flags b).dirty = false ∧ INT_READ_RDY ≠ 0) then
              (cleared.abstract (b :: rest)).sdStart b (.restart b (m.flags b).dirty i) reply
            else
              (cleared.abstract (b :: rest)).complete b rest i words reply
          else
            (some "unexpected sd intr",
              { m with interrupt := i, stopped := true }.abstract (b :: rest)) :=
        rfl
      rw [if_neg (by simp [empty]), holds.firstEntry, handler]
      by_cases accepted : Accepted i
      · rw [if_pos accepted, if_pos accepted]
        dsimp only
        by_cases own : (m.flags b).dirty = true ∧ i = INT_DATA_DONE ∨
            (m.flags b).dirty = false ∧ INT_READ_RDY ≠ 0
        · rw [if_neg (not_not.mpr own), if_neg (not_not.mpr own)]
          have holds' : cleared.links.Holds (b :: rest) := holds
          exact ⟨rest, complete_abstract holds' i words reply⟩
        · rw [if_pos own, if_pos own]
          exact ⟨b :: rest, rfl, holds⟩
      · rw [if_neg accepted, if_neg accepted]
        exact ⟨b :: rest, rfl, holds⟩

/-- Every action on the pointers is one on the queue. -/
theorem exec_abstract {β : Type} {action : Act Buf β} {party : Party Pid} {value : β}
    (holds : m.links.Holds queue)
    (nodup : ∀ value s, exec action party (m.abstract queue) = .done value s → s.sdque.Nodup)
    (effect : m.exec action party = .done value m') :
    ∃ queue', exec action party (m.abstract queue) = .done value (m'.abstract queue') ∧
      m'.links.Holds queue' := by
  cases party with
  | interrupt =>
      cases action with
      | intr i words reply =>
          simp only [Memory.exec] at effect
          split at effect
          · cases effect
          · rename_i running
            cases effect
            rcases sdIntr_abstract holds with ⟨queue', same, holds'⟩
            refine ⟨queue', (if_neg running).trans ?_, holds'⟩
            change Outcome.done ((m.abstract queue).sdIntr (m.interrupt ||| i) words reply).1
              ((m.abstract queue).sdIntr (m.interrupt ||| i) words reply).2 = _
            rw [same]
      | _ => cases effect
  | proc p =>
      cases action with
      | enqueue b reply =>
          simp only [Memory.exec] at effect
          split at effect
          · cases effect
          · rename_i running
            cases effect
            rcases sdrw_abstract (p := p) (b := b) holds reply with ⟨same, links⟩
            have runs : exec (.enqueue b reply) (.proc p) (m.abstract queue) =
                .done (m.sdrw p b reply).1 ((m.sdrw p b reply).2.abstract (queue ++ [b])) := by
              refine (if_neg running).trans ?_
              rw [same]
            have new : b ∉ queue := by
              intro member
              exact (List.nodup_append.mp (nodup _ _ runs)).2.2 b member b List.mem_cons_self rfl
            refine ⟨queue ++ [b], runs, ?_⟩
            rw [links]
            exact holds.listAddTail new
      | lock b =>
          simp only [Memory.exec, Shared.exec] at effect
          split at effect
          · rename_i free
            cases effect
            exact ⟨queue, congrArg (Outcome.map _) (if_pos free), holds⟩
          · cases effect
      | await b =>
          simp only [Memory.exec, Shared.exec] at effect
          split at effect
          · rename_i awake
            cases effect
            exact ⟨queue, congrArg (Outcome.map _) (if_pos awake), holds⟩
          · cases effect
      | intr i words reply => cases effect
      | _ =>
          cases effect
          exact ⟨queue, rfl, holds⟩

theorem Memory.exec_again {β : Type} {action : Act Buf β} {party : Party Pid} :
    m.exec action party ≠ .again m' := by
  intro effect
  have never : (Shared.exec action party m.toShared).map (fun shared =>
      { m with toShared := shared }) ≠ .again m' := by
    intro mapped
    obtain ⟨shared, again⟩ := Outcome.map_again mapped
    exact Shared.exec_again again
  cases party <;> cases action <;> simp only [Memory.exec] at effect <;>
    first
    | exact never effect
    | (split at effect <;> cases effect)

/-- The state is that of the queue, which the pointers lead through. -/
structure Pointed (config : Config (Act Buf) (Party Pid) (Memory Pid Buf))
    (abs : Config (Act Buf) (Party Pid) (State Pid Buf)) : Prop where
  prog : abs.prog = config.prog
  shared : abs.shared = config.shared.abstract abs.shared.sdque
  holds : config.shared.links.Holds abs.shared.sdque

/--
In every run the list of `struct list_head` from `sdque` on holds the requests in the order of
the queue, so the driver on pointers does what the driver on the queue does.
-/
theorem pointers_refine [DecidableEq Pid] (flags : Buf → Flags) (data : Buf → Block)
    (links : Links Buf) :
    Refines (pointers : System (Act Buf) (Party Pid) _) system Pointed
      (ready flags data links) (idle flags data) := by
  refine ⟨fun config abs => Pointed config abs ∧
    system.Reachable (idle flags data) abs, ?_, ?_⟩
  · exact ⟨⟨rfl, rfl, Links.holds_init⟩, .refl⟩
  · rintro config abs ⟨pointed, run⟩
    refine ⟨pointed, fun config' step => ?_⟩
    cases step with
    | @start party program idle permitted =>
        have step : system.Step abs ⟨abs.shared, Function.update abs.prog party program⟩ :=
          .start (by rw [pointed.prog]; exact idle) permitted
        refine ⟨_, .inr step, ⟨?_, pointed.shared, pointed.holds⟩, run.tail step⟩
        rw [pointed.prog]
    | @done party β action next value state current effect =>
        have current' : abs.prog party = .act action next := by
          rw [pointed.prog]
          exact current
        have nodup : ∀ value s, exec action party (config.shared.abstract abs.shared.sdque) =
            .done value s → s.sdque.Nodup := by
          intro value s result
          rw [← pointed.shared] at result
          rcases Protocol.reachable tasks_safe (idle_explained flags data)
            (run.tail (.done current' result)) with ⟨phase, inv, _⟩
          exact inv.nodup
        rcases exec_abstract pointed.holds nodup effect with ⟨queue', result, holds'⟩
        rw [← pointed.shared] at result
        have step : system.Step abs
            ⟨state.abstract queue', Function.update abs.prog party (next value)⟩ :=
          .done current' result
        refine ⟨_, .inr step, ⟨?_, rfl, holds'⟩, run.tail step⟩
        rw [pointed.prog]
    | again current effect => exact absurd effect Memory.exec_again

end Simulation

end PiKernel.Sd
