import Mathlib.Data.List.Basic
import Mathlib.Data.List.DropRight
import Mathlib.Data.List.TakeWhile

/-!
# The tokens of a command line

A pointer into the line is what is left of the line from there on; the line has no NUL in
it, and one after it.  `gettoken` and `peek` read and skip white space, so that a cursor
may stand before or after it.
-/

namespace PiKernel.Sh

/-- A pointer into the line. -/
abbrev Ptr := List UInt8

def whitespace : List UInt8 := [' ', '\t', '\r', '\n', '\x0b'].map Char.toUInt8

def symbols : List UInt8 := ['<', '|', '>', '&', ';', '(', ')'].map Char.toUInt8

/-- `strchr(whitespace, *s)` -/
def isWhite (b : UInt8) : Bool := b ∈ whitespace

/-- The bytes of a word. -/
def inWord (b : UInt8) : Bool := b ∉ whitespace ∧ b ∉ symbols

/-- What `gettoken` returns: 0, a symbol, `+` for `>>`, or `a`. -/
inductive Kind where
  | eof
  | bar
  | lpar
  | rpar
  | semi
  | amp
  | lt
  | gt
  | append
  | word
  deriving DecidableEq

/-- The cases of the `switch`; any other byte begins a word. -/
def Kind.ofByte (b : UInt8) : Kind :=
  if b = '|'.toUInt8 then .bar
  else if b = '('.toUInt8 then .lpar
  else if b = ')'.toUInt8 then .rpar
  else if b = ';'.toUInt8 then .semi
  else if b = '&'.toUInt8 then .amp
  else if b = '<'.toUInt8 then .lt
  else if b = '>'.toUInt8 then .gt
  else .word

/-- The first byte of a symbol. -/
def Kind.byte : Kind → Option UInt8
  | .bar => some '|'.toUInt8
  | .lpar => some '('.toUInt8
  | .rpar => some ')'.toUInt8
  | .semi => some ';'.toUInt8
  | .amp => some '&'.toUInt8
  | .lt => some '<'.toUInt8
  | .gt | .append => some '>'.toUInt8
  | .eof | .word => none

/-- The bytes from `q` up to `eq`. -/
structure Word where
  q : Ptr
  eq : Ptr
  deriving DecidableEq

def Word.text (w : Word) : List UInt8 := w.q.take (w.q.length - w.eq.length)

/-- What `gettoken` returns, with `*q` and `*eq`. -/
structure Token extends Word where
  kind : Kind
  deriving DecidableEq

/-- `while (s < es && strchr(whitespace, *s)) s++;` -/
def skip (s : Ptr) : Ptr := s.dropWhile isWhite

/-- The branches of the `switch` of `gettoken`. -/
def Kind.branch (b : UInt8) (rest : Ptr) : Kind → Kind × Ptr
  | .gt => if rest.head? = some '>'.toUInt8 then (.append, rest.tail) else (.gt, rest)
  | .word => (.word, (b :: rest).dropWhile inWord)
  | kind => (kind, rest)

/-- The `switch` of `gettoken`. -/
def scan : Ptr → Kind × Ptr
  | [] => (.eof, [])
  | b :: rest => (Kind.ofByte b).branch b rest

/-- `gettoken`: the token, and the cursor after it. -/
def gettoken (s : Ptr) : Token × Ptr :=
  let q := skip s
  let found := scan q
  ({ kind := found.1, q := q, eq := found.2 }, skip found.2)

/-- `peek`: the cursor, and whether the next byte is one of these. -/
def peek (s : Ptr) (toks : List Char) : Ptr × Bool :=
  let s := skip s
  (s, s.head?.any fun b => b ∈ toks.map Char.toUInt8)

/-! ## The bytes of symbols -/

theorem ofByte_word {b : UInt8} : Kind.ofByte b = .word ↔ b ∉ symbols := by
  unfold Kind.ofByte symbols
  constructor
  · intro word mem
    repeat' split at word
    all_goals simp_all
  · intro other
    simp only [List.map_cons, List.map_nil, List.mem_cons, List.not_mem_nil, or_false,
      not_or] at other
    rcases other with ⟨lt, bar, gt, amp, semi, lpar, rpar⟩
    simp [lt, bar, gt, amp, semi, lpar, rpar]

theorem ofByte_byte {b : UInt8} (other : Kind.ofByte b ≠ .word) :
    (Kind.ofByte b).byte = some b := by
  unfold Kind.ofByte at *
  repeat' split
  all_goals simp_all [Kind.byte]

theorem ofByte_ne {b : UInt8} : Kind.ofByte b ≠ .eof ∧ Kind.ofByte b ≠ .append := by
  unfold Kind.ofByte
  repeat' split
  all_goals simp

/-! ## Cursors -/

theorem skip_suffix (s : Ptr) : skip s <:+ s := List.dropWhile_suffix _

@[simp]
theorem skip_skip (s : Ptr) : skip (skip s) = skip s := List.dropWhile_idempotent isWhite s

/-- After white space is skipped, none is left. -/
theorem skip_head {s : Ptr} {b : UInt8} {rest : Ptr} (skipped : skip s = b :: rest) :
    b ∉ whitespace := by
  have first := List.head?_dropWhile_not isWhite s
  unfold skip at skipped
  rw [skipped] at first
  simpa [isWhite] using first

section Branches

variable
    {b : UInt8}
    {rest : Ptr}

theorem branch_suffix (kind : Kind) : (kind.branch b rest).2 <:+ b :: rest := by
  cases kind with
  | gt =>
      simp only [Kind.branch]
      split
      · exact (List.tail_suffix rest).trans (List.suffix_cons b rest)
      · exact List.suffix_cons b rest
  | word => exact List.dropWhile_suffix _
  | _ => exact List.suffix_cons b rest

/-- A token has at least one byte. -/
theorem branch_length (black : b ∉ whitespace) :
    ((Kind.ofByte b).branch b rest).2.length ≤ rest.length := by
  cases kind : Kind.ofByte b with
  | gt =>
      simp only [Kind.branch]
      split <;> simp
  | word =>
      have mine : inWord b = true := by
        simpa [inWord, black] using ofByte_word.mp kind
      have shorter := (List.dropWhile_suffix (l := rest) inWord).length_le
      simpa [Kind.branch, List.dropWhile_cons, mine] using shorter
  | _ => exact Nat.le_refl _

theorem branch_ne : ((Kind.ofByte b).branch b rest).1 ≠ .eof := by
  have other := (ofByte_ne (b := b)).1
  cases kind : Kind.ofByte b with
  | gt =>
      simp only [Kind.branch]
      split <;> simp
  | eof => exact absurd kind other
  | _ => simp [Kind.branch]

end Branches

theorem scan_suffix (s : Ptr) : (scan s).2 <:+ s := by
  cases s with
  | nil => exact List.suffix_refl _
  | cons b rest => exact branch_suffix _

theorem gettoken_suffix (s : Ptr) : (gettoken s).2 <:+ s :=
  (skip_suffix _).trans ((scan_suffix _).trans (skip_suffix s))

/-- `gettoken` returns 0 at the end only. -/
theorem gettoken_eof {s : Ptr} : (gettoken s).1.kind = .eof ↔ skip s = [] := by
  unfold gettoken
  cases skip s with
  | nil => simp [scan]
  | cons b rest => simpa [scan] using branch_ne

theorem gettoken_length {s : Ptr} (found : (gettoken s).1.kind ≠ .eof) :
    (gettoken s).2.length < s.length := by
  have filled : skip s ≠ [] := fun empty => found (gettoken_eof.mpr empty)
  rcases List.exists_cons_of_ne_nil filled with ⟨b, rest, skipped⟩
  have first : (scan (skip s)).2.length ≤ rest.length := by
    rw [skipped]
    exact branch_length (skip_head skipped)
  have second := (skip_suffix (scan (skip s)).2).length_le
  have third := (skip_suffix s).length_le
  rw [skipped, List.length_cons] at third
  exact Nat.lt_of_le_of_lt (second.trans first) third

@[simp]
theorem gettoken_skip (s : Ptr) : gettoken (skip s) = gettoken s := by
  unfold gettoken
  rw [skip_skip]

/-! ## What peek tells of the next token -/

/-- Only symbols begin with their byte. -/
theorem gettoken_byte (s : Ptr) :
    (gettoken s).1.kind.byte = (skip s).head?.filter fun b => b ∈ symbols := by
  unfold gettoken
  dsimp only
  cases skip s with
  | nil => rfl
  | cons b rest =>
      simp only [scan, List.head?_cons, Option.filter_some]
      cases kind : Kind.ofByte b with
      | word =>
          have other := ofByte_word.mp kind
          simp [Kind.branch, Kind.byte, other]
      | gt =>
          have mine := ofByte_byte (b := b) (by simp [kind])
          have symbol : b ∈ symbols := by
            by_contra other
            rw [ofByte_word.mpr other] at kind
            cases kind
          rw [kind] at mine
          simp only [Kind.branch]
          split <;> simpa [symbol, Kind.byte] using mine
      | _ =>
          have mine := ofByte_byte (b := b) (by simp [kind])
          have symbol : b ∈ symbols := by
            by_contra other
            rw [ofByte_word.mpr other] at kind
            cases kind
          rw [kind] at mine
          simpa [symbol, Kind.branch] using mine

/-- `peek` finds the tokens that begin with one of the bytes. -/
theorem peek_iff {s : Ptr} (toks : List Char) (kinds : List Kind)
    (of : (toks.all fun c => c.toUInt8 ∈ symbols) = true)
    (same : ∀ kind : Kind, (kind.byte.any fun b => b ∈ toks.map Char.toUInt8) = true ↔
      kind ∈ kinds) :
    (peek s toks).2 = true ↔ (gettoken s).1.kind ∈ kinds := by
  rw [← same, gettoken_byte]
  unfold peek
  dsimp only
  cases skip s with
  | nil => simp
  | cons b rest =>
      simp only [List.head?_cons, Option.any_some, Option.filter_some]
      by_cases mem : b ∈ symbols
      · rw [if_pos (decide_eq_true mem), Option.any_some]
      · have other : b ∉ toks.map Char.toUInt8 := by
          intro found
          rcases List.mem_map.mp found with ⟨c, mine, rfl⟩
          exact mem (of_decide_eq_true (List.all_eq_true.mp of c mine))
        simp [mem, other]

@[simp]
theorem peek_skip (s : Ptr) (toks : List Char) : (peek s toks).1 = skip s := rfl

/-! ## The sequence of tokens -/

/-- The tokens of a line. -/
def tokens (s : Ptr) : List Token :=
  if (gettoken s).1.kind = .eof then []
  else (gettoken s).1 :: tokens (gettoken s).2
termination_by s.length
decreasing_by exact gettoken_length ‹_›

theorem tokens_skip (s : Ptr) : tokens (skip s) = tokens s := by
  rw [tokens, gettoken_skip, ← tokens]

end PiKernel.Sh
