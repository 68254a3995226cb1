import PiKernel.Console.Editor
import PiKernel.Conc.Schedule
import Mathlib.Data.List.Infix

/-!
# The reads of the console

Every byte that is committed is read once and in order.  A control-D ends a read; it is
taken off the stream by a read that returns nothing, and kept for that read if it comes
after other bytes.
-/

namespace PiKernel.Console

open PiKernel.Conc

/-! ## Reads of a stream -/

/-- The bytes of the stream which the read has consumed. -/
def Read.transcript (read : Read) : List UInt8 :=
  if read.bytes = [] ∧ read.size ≠ 0 then [C 'D'] else read.bytes

/-- The read ended as it should, before the rest of the stream. -/
structure Read.Ended (read : Read) (rest : List UInt8) : Prop where
  fits : read.bytes.length ≤ read.size
  endOfFile : C 'D' ∉ read.bytes
  newline : 10 ∉ read.bytes.dropLast
  reason : read.bytes.length = read.size ∨ read.bytes.getLast? = some 10 ∨
    read.bytes = [] ∨ rest.head? = some (C 'D')

/-- All reads ended as they should; `rest` has not been read. -/
def Explained : List Read → List UInt8 → Prop
  | [], _ => True
  | read :: reads, rest =>
      read.Ended (reads.flatMap Read.transcript ++ rest) ∧ Explained reads rest

theorem head?_append {stream more : List UInt8} {c : UInt8} (first : stream.head? = some c) :
    (stream ++ more).head? = some c := by
  rw [List.head?_append, first]
  rfl

theorem Read.Ended.append {read : Read} {rest : List UInt8} (ended : read.Ended rest)
    (more : List UInt8) : read.Ended (rest ++ more) := by
  constructor
  · exact ended.fits
  · exact ended.endOfFile
  · exact ended.newline
  · rcases ended.reason with whole | line | nothing | kept
    · exact Or.inl whole
    · exact Or.inr (Or.inl line)
    · exact Or.inr (Or.inr (Or.inl nothing))
    · exact Or.inr (Or.inr (Or.inr (head?_append kept)))

namespace Explained

variable {reads : List Read} {rest : List UInt8} {read : Read}

theorem append (explained : Explained reads rest) (more : List UInt8) :
    Explained reads (rest ++ more) := by
  induction reads with
  | nil => exact True.intro
  | cons read reads ih =>
    constructor
    · rw [← List.append_assoc]
      exact explained.1.append more
    · exact ih explained.2

/-- One more read. -/
theorem concat (explained : Explained reads (read.transcript ++ rest))
    (ended : read.Ended rest) : Explained (reads ++ [read]) rest := by
  induction reads with
  | nil => exact ⟨ended, True.intro⟩
  | cons first reads ih =>
    constructor
    · show first.Ended ((reads ++ [read]).flatMap Read.transcript ++ rest)
      rw [List.flatMap_append, List.flatMap_singleton, List.append_assoc]
      exact explained.1
    · exact ih explained.2

theorem drop {before : List Read} (explained : Explained (before ++ reads) rest) :
    Explained reads rest := by
  induction before with
  | nil => exact explained
  | cons first before ih => exact ih explained.2

theorem ended {before after : List Read} (explained : Explained (before ++ read :: after) rest) :
    read.Ended (after.flatMap Read.transcript ++ rest) :=
  explained.drop.1

/-- After a read that stopped at a control-D, the next one returns nothing. -/
theorem kept {before after : List Read} {first second : Read}
    (explained : Explained (before ++ first :: second :: after) rest)
    (found : first.bytes ≠ []) (short : first.bytes.length < first.size)
    (line : first.bytes.getLast? ≠ some 10) : second.bytes = [] := by
  have here := explained.drop
  have stopped : ((second :: after).flatMap Read.transcript ++ rest).head? = some (C 'D') := by
    rcases here.1.reason with whole | newline | nothing | kept
    · exact absurd whole (Nat.ne_of_lt short)
    · exact absurd newline line
    · exact absurd nothing found
    · exact kept
  cases bytes : second.bytes with
  | nil => rfl
  | cons c more =>
    have transcript : second.transcript = c :: more := by
      rw [Read.transcript, if_neg fun both => List.cons_ne_nil c more (bytes ▸ both.1), bytes]
    rw [List.flatMap_cons, transcript] at stopped
    have first : c = C 'D' := Option.some.inj stopped
    apply absurd _ here.2.1.endOfFile
    rw [bytes, first]
    exact List.mem_cons_self

end Explained

/-! ## The guarantee -/

/-- The state of the console in terms of the reference editor. -/
structure Lossless (ignored : List UInt8) (config : Config Act Party State) : Prop where
  ordered : config.shared.input.r ≤ config.shared.input.w ∧
    config.shared.input.w ≤ config.shared.input.e ∧
    config.shared.input.e ≤ config.shared.input.r + INPUT_BUF
  unread : config.shared.input.w =
    config.shared.input.r + (Editor.after ignored config.shared.events).unread.length
  /-- `current` are the bytes of a call that has not yet returned. -/
  read : ∃ current, (config.prog .reader = .ret () → current = []) ∧
    config.shared.reads.flatMap Read.transcript ++
        (current ++ (Editor.after ignored config.shared.events).unread) =
      (Editor.after ignored config.shared.events).committed ∧
    ∀ before read after, config.shared.reads = before ++ read :: after →
      read.Ended (after.flatMap Read.transcript ++
        (current ++ (Editor.after ignored config.shared.events).unread))
  kept : ∀ before first second after, config.shared.reads = before ++ first :: second :: after →
    first.bytes ≠ [] → first.bytes.length < first.size → first.bytes.getLast? ≠ some 10 →
    second.bytes = []

/-! ## The protocol -/

/-- What the call of the reader has taken, and whether it has left a control-D. -/
structure Ghost where
  current : List UInt8
  kept : Bool

/-- The invariant of the console. -/
structure Ghost.Inv (g : Ghost) (s : State) : Prop where
  alive : s.killed = false
  shows : Shows s.input (Editor.after [0] s.events)
  taken : s.reads.flatMap Read.transcript ++ g.current = (Editor.after [0] s.events).taken
  explained : Explained s.reads (g.current ++ (Editor.after [0] s.events).unread)
  eof : g.kept = true → (Editor.after [0] s.events).unread.head? = some (C 'D')

/-- Only the reader has a part of the ghost state. -/
def Ghost.own (g : Ghost) : Party → Ghost
  | .reader => g
  | .interrupt => ⟨[], false⟩

def protocol : Protocol system Ghost Ghost where
  inv := Ghost.Inv
  own := Ghost.own
  ok _ _ _ := True
  mayPanic _ := False
  rest party mine := party = .reader → mine = ⟨[], false⟩

theorem after_append (ignored : List UInt8) (events more : List Event) :
    Editor.after ignored (events ++ more) =
      more.foldl (Editor.step ignored) (Editor.after ignored events) := by
  rw [Editor.after, List.foldl_append, Editor.after]

/-- Keys only add to the stream. -/
theorem Ghost.Inv.keys {g : Ghost} {s : State} (inv : g.Inv s) (bytes : List UInt8)
    (listing : C 'P' ∉ bytes) :
    g.Inv { s with
      input := bytes.foldl Input.key s.input
      events := s.events ++ bytes.map Event.key } := by
  have grown := Editor.keys_grow [0] bytes (Editor.after [0] s.events)
  rw [← after_append] at grown
  obtain ⟨taken, more, unread⟩ := grown
  constructor
  · exact inv.alive
  · rw [after_append]
    exact inv.shows.keys bytes listing
  · rw [taken]
    exact inv.taken
  · rw [← unread, ← List.append_assoc]
    exact inv.explained.append more
  · intro kept
    rw [← unread]
    exact head?_append (inv.eof kept)

theorem intr_safe (bytes : List UInt8) (listing : C 'P' ∉ bytes) (mine : Ghost) :
    protocol.Safe .interrupt (consoleIntr bytes) mine fun _ mine' =>
      protocol.rest .interrupt mine' := by
  rw [consoleIntr, if_neg listing]
  intro g s inv owned
  constructor
  · exact True.intro
  · show protocol.Accepts .interrupt g _ (if s.panicked then _ else _)
    split
    · exact True.intro
    · refine ⟨g, inv.keys bytes listing, fun _ _ => rfl, ?_⟩
      intro same
      cases same

/-- The next unread byte goes to the reader. -/
theorem Ghost.Inv.take {g : Ghost} {s : State} (inv : g.Inv s) (found : s.input.r ≠ s.input.w) :
    Ghost.Inv ⟨g.current ++ [s.input.get s.input.r], false⟩ { s with
      input := { s.input with r := s.input.r + 1 }
      events := s.events ++ [.take] } := by
  have first := inv.shows.first found
  have step : Editor.after [0] (s.events ++ [.take]) = (Editor.after [0] s.events).take := by
    rw [after_append]
    rfl
  constructor
  · exact inv.alive
  · rw [step]
    exact inv.shows.take found
  · rw [step, Editor.take, first, ← List.append_assoc, inv.taken]
    rfl
  · rw [step, Editor.take]
    have whole := inv.explained
    rw [first, List.append_cons] at whole
    exact whole
  · intro kept
    cases kept

/-- How the loop of a read ends. -/
def Stopped (size : Nat) (bytes : List UInt8) (mine : Ghost) : Prop :=
  (bytes.length = size ∨ bytes.getLast? = some 10) ∧ mine = ⟨bytes, false⟩ ∨
    bytes = [] ∧ size ≠ 0 ∧ mine = ⟨[C 'D'], false⟩ ∨
    bytes ≠ [] ∧ mine = ⟨bytes, true⟩

/-- The bytes of a call, as its loop leaves them. -/
structure Collected (size : Nat) (bytes : List UInt8) (mine : Ghost) : Prop where
  fits : bytes.length ≤ size
  endOfFile : C 'D' ∉ bytes
  newline : 10 ∉ bytes.dropLast
  stopped : Stopped size bytes mine

/-- The rule for one byte. -/
theorem getc_safe {β : Type} {next : Got → Prog Act β} {post : β → Ghost → Prop}
    {acc : List UInt8} {rest : Bool} (partly : rest = true ↔ acc ≠ [])
    (eof : ∀ mine, mine = (if rest then ⟨acc, true⟩ else ⟨[C 'D'], false⟩) →
      protocol.Safe .reader (next .eof) mine post)
    (byte : ∀ c, c ≠ C 'D' →
      protocol.Safe .reader (next (.byte c)) ⟨acc ++ [c], false⟩ post) :
    protocol.Safe .reader (.act (.getc rest) next) ⟨acc, false⟩ post := by
  intro g s inv owned
  subst owned
  constructor
  · exact True.intro
  · show protocol.Accepts .reader _ _ (if s.input.r = s.input.w then
        if s.killed then Outcome.done Got.killed s else Outcome.blocked
      else
        if s.input.get s.input.r = C 'D' then
          Outcome.done Got.eof (if rest then s else _)
        else
          Outcome.done (Got.byte (s.input.get s.input.r)) _)
    by_cases empty : s.input.r = s.input.w
    · rw [if_pos empty, inv.alive]
      exact True.intro
    · rw [if_neg empty]
      have taken := inv.take empty
      have first := inv.shows.first empty
      by_cases control : s.input.get s.input.r = C 'D'
      · rw [if_pos control]
        cases rest with
        | true =>
          refine ⟨⟨acc, true⟩, ?_, ?_, eof _ rfl⟩
          · constructor
            · exact inv.alive
            · exact inv.shows
            · exact inv.taken
            · exact inv.explained
            · intro _
              show (Editor.after [0] s.events).unread.head? = _
              rw [first, control]
              rfl
          · intro party other
            cases party with
            | interrupt => rfl
            | reader => exact absurd rfl other
        | false =>
          have none : acc = [] := by
            by_contra found
            exact Bool.false_ne_true (partly.mpr found)
          subst none
          refine ⟨_, taken, ?_, ?_⟩
          · intro party other
            cases party with
            | interrupt => rfl
            | reader => exact absurd rfl other
          · apply eof
            rw [control]
            rfl
      · rw [if_neg control]
        refine ⟨_, taken, ?_, byte _ control⟩
        intro party other
        cases party with
        | interrupt => rfl
        | reader => exact absurd rfl other

/-- The loop, after some bytes have been read. -/
theorem readLoop_safe (size : Nat) {n : Nat} {acc : List UInt8}
    (count : acc.length + n = size) (endOfFile : C 'D' ∉ acc) (newline : 10 ∉ acc) :
    protocol.Safe .reader (readLoop size n) ⟨acc, false⟩ fun result mine =>
      ∃ bytes, result = some bytes ∧ Collected size (acc ++ bytes) mine := by
  induction n generalizing acc with
  | zero =>
    refine ⟨[], rfl, ?_⟩
    rw [List.append_nil]
    constructor
    · omega
    · exact endOfFile
    · intro member
      exact newline (List.dropLast_subset _ member)
    · exact Or.inl ⟨Or.inl count, rfl⟩
  | succ n ih =>
    have partly : (decide (n + 1 < size)) = true ↔ acc ≠ [] := by
      rw [decide_eq_true_eq, ← List.length_pos_iff]
      omega
    apply getc_safe partly
    · rintro _ rfl
      refine ⟨[], rfl, ?_⟩
      rw [List.append_nil]
      constructor
      · omega
      · exact endOfFile
      · intro member
        exact newline (List.dropLast_subset _ member)
      · by_cases some : n + 1 < size
        · right; right
          have found := partly.mp (decide_eq_true some)
          exact ⟨found, by simp [some]⟩
        · right; left
          have none : acc = [] := by
            by_contra found
            exact some (of_decide_eq_true (partly.mpr found))
          exact ⟨none, by omega, by simp [some]⟩
    · intro c other
      have plain : C 'D' ∉ acc ++ [c] := by
        rw [List.mem_append, List.mem_singleton]
        rintro (old | new)
        · exact endOfFile old
        · exact other new.symm
      have length : (acc ++ [c]).length = acc.length + 1 := by
        rw [List.length_append, List.length_singleton]
      by_cases line : c = 10
      · show protocol.Safe .reader (if c = 10 then _ else _) _ _
        rw [if_pos line]
        refine ⟨[c], rfl, ?_⟩
        constructor
        · omega
        · exact plain
        · rw [List.dropLast_concat]
          exact newline
        · left
          refine ⟨Or.inr ?_, rfl⟩
          rw [List.getLast?_concat, line]
      · show protocol.Safe .reader (if c = 10 then _ else _) _ _
        rw [if_neg line]
        have length' : (acc ++ [c]).length + n = size := by omega
        apply Protocol.Safe.seq (ih length' plain ?_)
        · rintro _ mine ⟨bytes, rfl, collected⟩
          refine ⟨c :: bytes, rfl, ?_⟩
          rw [List.append_cons]
          exact collected
        · rw [List.mem_append, List.mem_singleton]
          rintro (old | new)
          · exact newline old
          · exact line new.symm

/-- A call that is noted has consumed what it has taken. -/
theorem Collected.transcript {size : Nat} {bytes : List UInt8} {mine : Ghost}
    (collected : Collected size bytes mine) :
    (Read.mk size bytes).transcript = mine.current := by
  rcases collected.stopped with ⟨reason, rfl⟩ | ⟨rfl, some, rfl⟩ | ⟨found, rfl⟩
  · apply if_neg
    rintro ⟨nothing, some⟩
    subst nothing
    rcases reason with whole | line
    · exact some whole.symm
    · cases line
  · exact if_pos ⟨rfl, some⟩
  · exact if_neg fun both => found both.1

theorem Collected.ended {size : Nat} {bytes rest : List UInt8} {mine : Ghost}
    (collected : Collected size bytes mine)
    (eof : mine.kept = true → rest.head? = some (C 'D')) : (Read.mk size bytes).Ended rest := by
  constructor
  · exact collected.fits
  · exact collected.endOfFile
  · exact collected.newline
  · rcases collected.stopped with ⟨whole | line, rfl⟩ | ⟨nothing, _, rfl⟩ | ⟨_, rfl⟩
    · exact Or.inl whole
    · exact Or.inr (Or.inl line)
    · exact Or.inr (Or.inr (Or.inl nothing))
    · exact Or.inr (Or.inr (Or.inr (eof rfl)))

theorem consoleRead_safe (size : Int) :
    protocol.Safe .reader (consoleRead size) ⟨[], false⟩ fun _ mine =>
      protocol.rest .reader mine := by
  have loop := readLoop_safe size.toNat (Nat.zero_add size.toNat) List.not_mem_nil
    List.not_mem_nil
  apply Protocol.Safe.seq loop
  rintro _ mine ⟨bytes, rfl, collected⟩
  rw [List.nil_append] at collected
  intro g s inv owned
  have owned' : g = mine := owned
  subst owned'
  refine ⟨True.intro, ⟨[], false⟩, ?_, ?_, fun _ => rfl⟩
  · constructor
    · exact inv.alive
    · exact inv.shows
    · show (s.reads ++ [Read.mk size.toNat bytes]).flatMap Read.transcript ++ [] = _
      rw [List.flatMap_append, List.flatMap_singleton, collected.transcript, List.append_nil]
      exact inv.taken
    · apply Explained.concat
      · rw [collected.transcript]
        exact inv.explained
      · exact collected.ended inv.eof
    · intro kept
      cases kept
  · intro party other
    cases party with
    | interrupt => rfl
    | reader => exact absurd rfl other

theorem tasks_safe : protocol.TasksSafe := by
  apply Protocol.TasksSafe.ofSafe
  intro g s party program _ resting task
  cases party with
  | interrupt =>
    obtain ⟨bytes, listing, rfl⟩ := task
    exact intr_safe bytes listing _
  | reader =>
    obtain ⟨size, rfl⟩ := task
    rw [resting rfl]
    exact consoleRead_safe size

theorem booted_inv : protocol.Explains booted := by
  refine ⟨⟨[], false⟩, ?_, ?_⟩
  · constructor
    · rfl
    · exact Shows.start
    · rfl
    · exact True.intro
    · intro kept
      cases kept
  · intro party
    cases party with
    | interrupt =>
      intro same
      cases same
    | reader =>
      intro _
      rfl

/-! ## All runs -/

/--
In every state of every run the buffer is in order, and the reads so far are those of
the stream that the line editor has committed; the editor ignores zeros.
-/
theorem reads_lossless {config : Config Act Party State}
    (run : system.Reachable booted config) : Lossless [0] config := by
  obtain ⟨g, inv, safe⟩ := Protocol.reachable tasks_safe booted_inv run
  constructor
  · exact inv.shows.ordered
  · exact inv.shows.unread
  · refine ⟨g.current, ?_, ?_, ?_⟩
    · intro idle
      have resting := safe .reader
      rw [idle] at resting
      exact congrArg Ghost.current (resting rfl)
    · rw [← List.append_assoc, inv.taken, Editor.committed]
    · intro before read after reads
      have explained := inv.explained
      rw [reads] at explained
      exact explained.ended
  · intro before first second after reads
    have explained := inv.explained
    rw [reads] at explained
    exact explained.kept

/-! ## Two runs -/

/-- What the parties are called for. -/
inductive Call where
  | keys (bytes : List UInt8)
  | read (size : Int)

namespace Call

def program : Call → Prog Act Unit
  | keys bytes => consoleIntr bytes
  | read size => consoleRead size

def permitted : Call → State → Party → Bool
  | keys bytes, _, .interrupt => C 'P' ∉ bytes
  | read _, _, .reader => true
  | _, _, _ => false

theorem task (call : Call) (s : State) (party : Party)
    (permitted : call.permitted s party = true) : system.task s party call.program := by
  cases call with
  | keys bytes =>
    cases party with
    | interrupt => exact ⟨bytes, of_decide_eq_true permitted, rfl⟩
    | reader => cases permitted
  | read size =>
    cases party with
    | interrupt => cases permitted
    | reader => exact ⟨size, rfl⟩

end Call

/-- A line is ended by a control-D after two bytes, and read twice. -/
def endedLine : List (Conc.Event Party Call) :=
  [.call .interrupt (.keys [0, 97, 98, C 'D']), .run .interrupt] ++
    .call .reader (.read 5) :: List.replicate 4 (.run .reader) ++
    .call .reader (.read 5) :: List.replicate 2 (.run .reader)

/-- The first read stops at the control-D, which the second one takes. -/
theorem reads_lossless_endedLine : ∃ config, system.Reachable booted config ∧
    config.shared.reads = [⟨5, [97, 98]⟩, ⟨5, []⟩] ∧ Lossless [0] config := by
  have ends : (system.replay Call.permitted Call.program endedLine booted).map
      (fun config => config.shared.reads) = some [⟨5, [97, 98]⟩, ⟨5, []⟩] := by
    rfl
  obtain ⟨config, replayed, reads⟩ := Option.map_eq_some_iff.mp ends
  have run := System.replay_reachable Call.task replayed
  exact ⟨config, run, reads, reads_lossless run⟩

/-- A line editor that takes zeros for data has one more byte to read. -/
theorem not_reads_lossless : ¬ ∀ config, system.Reachable booted config → Lossless [] config := by
  intro always
  have ends : (system.replay Call.permitted Call.program
      [.call .interrupt (.keys [0, 10]), .run .interrupt] booted).map
      (fun config => (config.shared.input.w, config.shared.input.r, config.shared.events)) =
        some (1, 0, [.key 0, .key 10]) := by
    rfl
  obtain ⟨config, replayed, state⟩ := Option.map_eq_some_iff.mp ends
  have unread := (always config (System.replay_reachable Call.task replayed)).unread
  simp only [Prod.mk.injEq] at state
  rw [state.1, state.2.1, state.2.2] at unread
  exact absurd unread (by decide)

end PiKernel.Console
