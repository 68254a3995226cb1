import PiKernel.Sd.Queue

/-!
# Runs of the SD card driver

Every program of a process and every interrupt keeps the invariant of the queue.  The
guarantees also need the controller to keep to the order that the driver expects.
-/

namespace PiKernel.Sd

open PiKernel.Conc

variable {Pid Buf : Type} [DecidableEq Buf] [DecidableEq Pid] {phase : Pid → Phase Buf}
  {s s' : State Pid Buf} {p : Pid} {b : Buf} {i : UInt32}

/-! ## The programs -/

section Rules

variable {β : Type} {next : Unit → Prog (Act Buf) β} {post : β → Phase Buf → Prop}

/-- The own phase after it has changed. -/
theorem Safe.update {new : Phase Buf} {program : Prog (Act Buf) β}
    (safe : protocol.Safe (Party.proc p) program new post) :
    protocol.Safe (Party.proc p) program
      (protocol.own (Function.update phase p new) (Party.proc p)) post := by
  have own : protocol.own (Function.update phase p new) (Party.proc p) = new :=
    Function.update_self ..
  rw [own]
  exact safe

theorem lock_safe
    (later : protocol.Safe (Party.proc p) (next ()) (.holds b none) post) :
    protocol.Safe (Party.proc p) (.act (.lock b) next) .idle post := by
  intro phase s inv owned
  refine ⟨True.intro, ?_⟩
  show protocol.Accepts _ _ _ ((if _ then Outcome.done () _ else Outcome.blocked).map _)
  split
  · rename_i free
    exact ⟨_, inv.lock owned free, frame phase p _, Safe.update later⟩
  · exact True.intro

theorem setFlags_safe {known : Option Flags} {flags : Flags}
    (later : protocol.Safe (Party.proc p) (next ()) (.holds b (some flags)) post) :
    protocol.Safe (Party.proc p) (.act (.setFlags b flags) next) (.holds b known) post := by
  intro phase s inv owned
  exact ⟨True.intro, _, inv.setFlags owned flags, frame phase p _, Safe.update later⟩

omit [DecidableEq Pid] in
theorem flags_safe {next : Flags → Prog (Act Buf) β} {flags : Flags}
    (later : protocol.Safe (Party.proc p) (next flags) (.holds b (some flags)) post) :
    protocol.Safe (Party.proc p) (.act (.flags b) next) (.holds b (some flags)) post := by
  intro phase s inv owned
  have known := inv.known p b flags owned
  refine ⟨True.intro, phase, inv, fun _ _ => rfl, ?_⟩
  rw [owned, known]
  exact later

theorem enqueue_safe {next : Option String → Prog (Act Buf) β} {flags : Flags}
    {reply : Reply} (undone : flags.done = false)
    (later : ∀ panic,
      protocol.Safe (Party.proc p) (next panic) (.waits b) post) :
    protocol.Safe (Party.proc p) (.act (.enqueue b reply) next) (.holds b (some flags)) post := by
  intro phase s inv owned
  have known := inv.known p b flags owned
  have undone' : (s.flags b).done = false := by rw [known]; exact undone
  refine ⟨True.intro, ?_⟩
  show protocol.Accepts _ _ _ (if s.stopped then Outcome.blocked else Outcome.done _ _)
  split
  · exact True.intro
  · exact ⟨_, inv.sdrw owned undone', frame phase p _, Safe.update (later _)⟩

theorem await_safe
    (later : protocol.Safe (Party.proc p) (next ()) (.holds b none) post) :
    protocol.Safe (Party.proc p) (.act (.await b) next) (.waits b) post := by
  intro phase s inv owned
  refine ⟨fun missing => (inv.finished p b owned missing).2, ?_⟩
  show protocol.Accepts _ _ _ ((if _ then Outcome.done () _ else Outcome.blocked).map _)
  split
  · rename_i awake
    exact ⟨_, inv.awaited owned awake.1, frame phase p _, Safe.update later⟩
  · exact True.intro

theorem unlock_safe {known : Option Flags}
    (later : protocol.Safe (Party.proc p) (next ()) .idle post) :
    protocol.Safe (Party.proc p) (.act (.unlock b) next) (.holds b known) post := by
  intro phase s inv owned
  exact ⟨True.intro, _, inv.unlock owned, frame phase p _, Safe.update later⟩

end Rules

theorem sdrw_safe (flags : Flags) (reply : Reply) :
    protocol.Safe (Party.proc p) (sdrw b reply) (.holds b (some flags)) fun _ mine =>
      ∃ known, mine = .holds b known := by
  apply flags_safe
  show protocol.Safe _ (if flags.done then _ else _) _ _
  by_cases done : flags.done = true
  · rw [if_pos done]
    exact True.intro
  · rw [if_neg done]
    apply enqueue_safe (Bool.eq_false_iff.mpr done)
    intro panic
    cases panic with
    | some message => exact True.intro
    | none =>
      apply await_safe
      exact ⟨none, rfl⟩

theorem use_safe (requests : List (Flags × Reply)) :
    protocol.Safe (Party.proc p) (use b requests) .idle fun _ mine => mine = .idle := by
  apply lock_safe
  have loop : protocol.Safe (Party.proc p)
      (requests.forM fun request => do
        Prog.perform (.setFlags b request.1)
        sdrw b request.2) (.holds b none) fun _ mine => ∃ known, mine = .holds b known := by
    apply Protocol.Safe.forM (fun _ mine => ∃ known, mine = .holds b known)
    · rintro before request after mine _ ⟨known, rfl⟩
      apply setFlags_safe
      exact sdrw_safe request.1 request.2
    · intro mine held
      exact held
    · exact ⟨none, rfl⟩
  apply Protocol.Safe.seq loop
  rintro _ mine ⟨known, rfl⟩
  apply unlock_safe
  exact rfl

omit [DecidableEq Pid] in
theorem sdIntr_safe (words : Block) (reply : Reply) :
    protocol.Safe (Party.interrupt : Party Pid) (sdIntr i words reply : Prog (Act Buf) Unit)
      .idle fun _ mine => mine = .idle := by
  intro phase s inv owned
  refine ⟨True.intro, ?_⟩
  show protocol.Accepts _ _ _ (if s.stopped then Outcome.blocked else Outcome.done _ _)
  split
  · exact True.intro
  · refine ⟨phase, inv.intr, fun _ _ => rfl, ?_⟩
    cases (s.sdIntr (s.interrupt ||| i) words reply).1 with
    | some message => exact True.intro
    | none => exact rfl

theorem tasks_safe :
    (protocol : Protocol (system : System (Act Buf) (Party Pid) (State Pid Buf))
      _ _).TasksSafe := by
  apply Protocol.TasksSafe.ofSafe
  intro phase s party program _ resting task
  cases party with
  | interrupt =>
    obtain ⟨i, words, reply, _, rfl⟩ := task
    exact sdIntr_safe words reply
  | proc p =>
    obtain ⟨b, requests, rfl⟩ := task
    have resting' : protocol.own phase (Party.proc p) = Phase.idle := resting
    rw [resting']
    exact use_safe requests

omit [DecidableEq Pid] in
theorem idle_explained (flags : Buf → Flags) (data : Buf → Block) :
    protocol.Explains (idle flags data : Config (Act Buf) (Party Pid) (State Pid Buf)) := by
  refine ⟨fun _ => .idle, ?_, ?_⟩
  · constructor
    · constructor
      · rfl
      · intro before after p b split
        exact absurd split (List.cons_ne_nil _ _ ∘ (List.append_eq_nil_iff.mp ·.symm |>.2))
    · intro p b
      constructor
      · intro held
        cases held
      · intro has
        exact has.elim
    · intro p b flags holds
      cases holds
    · exact List.nodup_nil
    · intro b member
      cases member
    · intro p b waits
      cases waits
    · intro p b waits
      cases waits
  · intro party
    cases party <;> exact rfl

/-- The programs that the only process and the handler start; the controller takes all. -/
inductive Call where
  | use (requests : List Flags)
  | intr (i : UInt32)

def Call.permitted : Call → State Unit Unit → Party Unit → Bool
  | .use _, _, .proc _ => true
  | .intr i, _, .interrupt => decide (Accepted i)
  | _, _, _ => false

def Call.program : Call → Prog (Act Unit) Unit
  | .use requests => PiKernel.Sd.use () (requests.map fun flags => (flags, .ok))
  | .intr i => sdIntr i (fun _ => 0) .ok

theorem Call.task (call : Call) (s : State Unit Unit) (party : Party Unit)
    (permitted : Call.permitted call s party = true) :
    system.task s party call.program := by
  cases call with
  | use requests =>
    cases party with
    | interrupt => cases permitted
    | proc p => exact ⟨(), _, rfl⟩
  | intr i =>
    cases party with
    | interrupt => exact ⟨i, _, _, of_decide_eq_true permitted, rfl⟩
    | proc p => cases permitted

end PiKernel.Sd
