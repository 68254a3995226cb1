import PiKernel.Console.Input

/-!
# The reference line editor

The editor keeps the bytes that have been read, the committed ones that have not, and
the line that is being edited.  The circular buffer shows the last two of them.
-/

namespace PiKernel.Console

open PiKernel.Conc

/-- The lists of a line editor. -/
structure Editor where
  taken : List UInt8
  unread : List UInt8
  line : List UInt8

namespace Editor

/-- All bytes that have ever been committed. -/
def committed (editor : Editor) : List UInt8 := editor.taken ++ editor.unread

/-- The line becomes readable. -/
def commit (editor : Editor) : Editor :=
  { editor with unread := editor.unread ++ editor.line, line := [] }

/-- A key other than the ignored ones. -/
def key (ignored : List UInt8) (editor : Editor) (c : UInt8) : Editor :=
  if c = C 'U' then
    { editor with line := [] }
  else if c = C 'H' ∨ c = 127 then
    { editor with line := editor.line.dropLast }
  else if c ∈ ignored ∨ editor.unread.length = INPUT_BUF then
    editor
  else
    let c := if c = 13 then 10 else c
    let editor := { editor with line := editor.line ++ [c] }
    if c = 10 ∨ c = C 'D' ∨ editor.unread.length + editor.line.length = INPUT_BUF then
      editor.commit
    else
      editor

/-- The first unread byte is read. -/
def take (editor : Editor) : Editor :=
  { editor with taken := editor.taken ++ editor.unread.take 1, unread := editor.unread.drop 1 }

def step (ignored : List UInt8) (editor : Editor) : Event → Editor
  | .key c => editor.key ignored c
  | .take => editor.take

/-- The editor after some events. -/
def after (ignored : List UInt8) (events : List Event) : Editor :=
  events.foldl (step ignored) ⟨[], [], []⟩

end Editor

/-! ## The circular buffer -/

/-- The buffer holds the unread bytes and then the line. -/
structure Shows (input : Input) (editor : Editor) : Prop where
  unread : input.w = input.r + editor.unread.length
  line : input.e = input.w + editor.line.length
  fits : editor.unread.length + editor.line.length ≤ INPUT_BUF
  full : editor.unread.length + editor.line.length = INPUT_BUF → editor.line = []
  bytes : ∀ i, i < editor.unread.length + editor.line.length →
    (editor.unread ++ editor.line)[i]? = some (input.get (input.r + i))
  plain : 10 ∉ editor.line

variable {input : Input} {editor : Editor} {c : UInt8}

namespace Shows

theorem start : Shows ⟨fun _ => 0, 0, 0, 0⟩ ⟨[], [], []⟩ := by
  constructor
  · rfl
  · rfl
  · exact Nat.zero_le _
  · intro _
    rfl
  · intro i inside
    exact absurd inside (Nat.not_lt_zero i)
  · exact List.not_mem_nil

/-- The claim about the indices. -/
theorem ordered (shows : Shows input editor) :
    input.r ≤ input.w ∧ input.w ≤ input.e ∧ input.e ≤ input.r + INPUT_BUF := by
  have unread := shows.unread
  have line := shows.line
  have fits := shows.fits
  omega

theorem empty_iff (shows : Shows input editor) :
    input.r = input.w ↔ editor.unread = [] := by
  have unread := shows.unread
  rw [← List.length_eq_zero_iff]
  omega

/-- The byte that a reader finds. -/
theorem first (shows : Shows input editor) (some : input.r ≠ input.w) :
    editor.unread = input.get input.r :: editor.unread.drop 1 := by
  cases found : editor.unread with
  | nil => exact absurd (shows.empty_iff.mpr found) some
  | cons c rest =>
    have byte := shows.bytes 0 (by rw [found, List.length_cons]; omega)
    rw [found] at byte
    rw [Option.some.inj byte]
    rfl

theorem take (shows : Shows input editor) (some : input.r ≠ input.w) :
    Shows { input with r := input.r + 1 } editor.take := by
  have first := shows.first some
  have length : editor.unread.length = (editor.unread.drop 1).length + 1 :=
    congrArg List.length first
  have unread := shows.unread
  have fits := shows.fits
  constructor
  · show input.w = input.r + 1 + (editor.unread.drop 1).length
    omega
  · exact shows.line
  · show (editor.unread.drop 1).length + editor.line.length ≤ INPUT_BUF
    omega
  · intro full
    have here : (editor.unread.drop 1).length + editor.line.length = INPUT_BUF := full
    omega
  · intro i inside
    have here : i < (editor.unread.drop 1).length + editor.line.length := inside
    have byte := shows.bytes (i + 1) (by omega)
    rw [first, List.cons_append, List.getElem?_cons_succ] at byte
    rw [show input.r + 1 + i = input.r + (i + 1) by omega]
    exact byte
  · exact shows.plain

/-- The last byte of the line. -/
theorem last (shows : Shows input editor) (some : input.e ≠ input.w) :
    editor.line = editor.line.dropLast ++ [input.get (input.e - 1)] := by
  have line := shows.line
  have unread := shows.unread
  have nonempty : editor.line ≠ [] := by
    intro empty
    rw [empty] at line
    exact some line
  have positive := List.length_pos_iff.mpr nonempty
  have byte := shows.bytes (editor.unread.length + editor.line.length - 1) (by omega)
  rw [List.getElem?_append_right (by omega),
    show editor.unread.length + editor.line.length - 1 - editor.unread.length =
      editor.line.length - 1 by omega,
    ← List.getLast?_eq_getElem?, List.getLast?_eq_getLast_of_ne_nil nonempty,
    show input.r + (editor.unread.length + editor.line.length - 1) = input.e - 1 by omega,
    Option.some.injEq] at byte
  rw [← byte, List.dropLast_append_getLast nonempty]

/-- The last byte of the line is erased. -/
theorem erase (shows : Shows input editor) (some : input.e ≠ input.w) :
    Shows { input with e := input.e - 1 } { editor with line := editor.line.dropLast } := by
  have last := shows.last some
  have length : editor.line.length = editor.line.dropLast.length + 1 := by
    rw [List.length_dropLast]
    have line := shows.line
    omega
  have line := shows.line
  have fits := shows.fits
  constructor
  · exact shows.unread
  · show input.e - 1 = input.w + editor.line.dropLast.length
    omega
  · show editor.unread.length + editor.line.dropLast.length ≤ INPUT_BUF
    omega
  · intro full
    have here : editor.unread.length + editor.line.dropLast.length = INPUT_BUF := full
    omega
  · intro i inside
    have here : i < editor.unread.length + editor.line.dropLast.length := inside
    have byte := shows.bytes i (by omega)
    rw [last, ← List.append_assoc, List.getElem?_append_left (by
      rw [List.length_append]
      exact here)] at byte
    exact byte
  · intro member
    exact shows.plain (List.dropLast_subset _ member)

theorem killLine {fuel : Nat} (shows : Shows input editor)
    (enough : editor.line.length ≤ fuel) :
    Shows (input.killLine fuel) { editor with line := [] } := by
  induction fuel generalizing input editor with
  | zero =>
    have empty : editor.line = [] := List.length_eq_zero_iff.mp (Nat.le_zero.mp enough)
    rw [← empty]
    exact shows
  | succ fuel ih =>
    rw [Input.killLine]
    by_cases some : input.e ≠ input.w
    · have last := shows.last some
      have plain : input.get (input.e - 1) ≠ 10 := by
        intro newline
        apply shows.plain
        rw [last, newline]
        exact List.mem_append_right _ (List.mem_singleton_self _)
      rw [if_pos ⟨some, plain⟩]
      apply ih (shows.erase some)
      show editor.line.dropLast.length ≤ fuel
      rw [List.length_dropLast]
      omega
    · have line := shows.line
      have empty : editor.line = [] := by
        rw [← List.length_eq_zero_iff]
        omega
      rw [if_neg fun both => some both.1, ← empty]
      exact shows

/-- The buffer with a byte at the end of the line. -/
theorem typed (shows : Shows input editor) (c : UInt8)
    (room : editor.unread.length + editor.line.length < INPUT_BUF) (i : Nat)
    (inside : i < editor.unread.length + (editor.line ++ [c]).length) :
    (editor.unread ++ (editor.line ++ [c]))[i]? =
      some (Function.update input.buf (input.e % INPUT_BUF) c ((input.r + i) % INPUT_BUF)) := by
  have unread := shows.unread
  have line := shows.line
  rw [List.length_append, List.length_singleton] at inside
  rw [← List.append_assoc]
  by_cases last : i = editor.unread.length + editor.line.length
  · have here : (input.r + i) % INPUT_BUF = input.e % INPUT_BUF := by
      congr 1
      omega
    rw [here, Function.update_self, last, ← List.length_append, List.getElem?_concat_length]
  · have other : (input.r + i) % INPUT_BUF ≠ input.e % INPUT_BUF := by
      simp only [INPUT_BUF] at room ⊢
      omega
    rw [Function.update_of_ne other, List.getElem?_append_left (by
      rw [List.length_append]
      omega)]
    exact shows.bytes i (by omega)

/-- The buffer follows the editor, which ignores zeros. -/
theorem key (shows : Shows input editor) (c : UInt8) (listing : c ≠ C 'P') :
    Shows (input.key c) (editor.key [0] c) := by
  have unread := shows.unread
  have line := shows.line
  have fits := shows.fits
  rw [Input.key, Editor.key, if_neg listing]
  by_cases kill : c = C 'U'
  · rw [if_pos kill, if_pos kill]
    exact shows.killLine (by omega)
  · rw [if_neg kill, if_neg kill]
    by_cases back : c = C 'H' ∨ c = 127
    · rw [if_pos back, if_pos back]
      by_cases some : input.e ≠ input.w
      · rw [if_pos some]
        exact shows.erase some
      · have empty : editor.line = [] := by
          rw [← List.length_eq_zero_iff]
          omega
        rw [if_neg some, empty, List.dropLast_nil, ← empty]
        exact shows
    · rw [if_neg back, if_neg back]
      by_cases room : c ≠ 0 ∧ input.e - input.r < INPUT_BUF
      · have accepted : ¬ (c ∈ [0] ∨ editor.unread.length = INPUT_BUF) := by
          rintro (zero | full)
          · exact room.1 (List.mem_singleton.mp zero)
          · omega
        rw [if_pos room, if_neg accepted]
        generalize (if c = 13 then 10 else c) = c
        have bytes := shows.typed c (by omega)
        have length : (editor.line ++ [c]).length = editor.line.length + 1 := by
          rw [List.length_append, List.length_singleton]
        have whole : input.e + 1 = input.r + INPUT_BUF ↔
            editor.unread.length + (editor.line ++ [c]).length = INPUT_BUF := by omega
        by_cases ends : c = 10 ∨ c = C 'D' ∨ input.e + 1 = input.r + INPUT_BUF
        · have ends' : c = 10 ∨ c = C 'D' ∨
              editor.unread.length + (editor.line ++ [c]).length = INPUT_BUF := by
            rwa [whole] at ends
          simp only [if_pos ends, if_pos ends', Editor.commit]
          constructor
          · show input.e + 1 = input.r + (editor.unread ++ (editor.line ++ [c])).length
            rw [List.length_append]
            omega
          · rfl
          · show (editor.unread ++ (editor.line ++ [c])).length + 0 ≤ INPUT_BUF
            rw [List.length_append]
            omega
          · intro _
            rfl
          · intro i inside
            rw [List.append_nil]
            apply bytes
            rw [← List.length_append]
            exact inside
          · exact List.not_mem_nil
        · have ends' : ¬ (c = 10 ∨ c = C 'D' ∨
              editor.unread.length + (editor.line ++ [c]).length = INPUT_BUF) := by
            rwa [whole] at ends
          simp only [if_neg ends, if_neg ends']
          constructor
          · exact unread
          · show input.e + 1 = input.w + (editor.line ++ [c]).length
            omega
          · show editor.unread.length + (editor.line ++ [c]).length ≤ INPUT_BUF
            omega
          · intro full
            have here : editor.unread.length + (editor.line ++ [c]).length = INPUT_BUF := full
            exact absurd (Or.inr (Or.inr here)) ends'
          · exact bytes
          · intro member
            rcases List.mem_append.mp member with old | new
            · exact shows.plain old
            · exact ends (Or.inl (List.mem_singleton.mp new).symm)
      · have dropped : c ∈ [0] ∨ editor.unread.length = INPUT_BUF := by
          by_cases zero : c = 0
          · exact Or.inl (List.mem_singleton.mpr zero)
          · right
            have full : editor.unread.length + editor.line.length = INPUT_BUF := by
              have small : ¬ input.e - input.r < INPUT_BUF := fun small => room ⟨zero, small⟩
              omega
            have empty := shows.full full
            rw [empty, List.length_nil, Nat.add_zero] at full
            exact full
        rw [if_neg room, if_pos dropped]
        exact shows

/-- A batch of keys. -/
theorem keys (shows : Shows input editor) (bytes : List UInt8) (listing : C 'P' ∉ bytes) :
    Shows (bytes.foldl Input.key input)
      ((bytes.map Event.key).foldl (Editor.step [0]) editor) := by
  induction bytes generalizing input editor with
  | nil => exact shows
  | cons c bytes ih =>
    apply ih
    · apply shows.key
      intro same
      exact listing (same ▸ List.mem_cons_self)
    · intro member
      exact listing (List.mem_cons_of_mem c member)

end Shows

/-- Keys leave what has been read alone, and only add to the unread bytes. -/
theorem Editor.key_grows (ignored : List UInt8) (editor : Editor) (c : UInt8) :
    (editor.key ignored c).taken = editor.taken ∧
      editor.unread <+: (editor.key ignored c).unread := by
  unfold Editor.key
  split
  · exact ⟨rfl, List.prefix_refl _⟩
  · split
    · exact ⟨rfl, List.prefix_refl _⟩
    · split
      · exact ⟨rfl, List.prefix_refl _⟩
      · generalize (if c = 13 then 10 else c) = c
        dsimp only
        split
        · exact ⟨rfl, List.prefix_append _ _⟩
        · exact ⟨rfl, List.prefix_refl _⟩

theorem Editor.keys_grow (ignored : List UInt8) (bytes : List UInt8) (editor : Editor) :
    ((bytes.map Event.key).foldl (Editor.step ignored) editor).taken = editor.taken ∧
      editor.unread <+: ((bytes.map Event.key).foldl (Editor.step ignored) editor).unread := by
  induction bytes generalizing editor with
  | nil => exact ⟨rfl, List.prefix_refl _⟩
  | cons c bytes ih =>
    have first := editor.key_grows ignored c
    have rest := ih (editor.key ignored c)
    exact ⟨rest.1.trans first.1, first.2.trans rest.2⟩

end PiKernel.Console
