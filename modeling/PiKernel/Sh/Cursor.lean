import PiKernel.Sh.Terminate

/-!
# The cursor in memory

In memory the cursor is an index in the buffer of the line, and `es` is that of the NUL
behind the line.  `gettoken` and `peek` keep the cursor between them; they never read behind
the NUL, and what they find is what the line has from the cursor on.
-/

namespace PiKernel.Sh

/-- `strchr(toks, b)`, which finds the NUL of `toks` as well. -/
def strchr (toks : List UInt8) (b : UInt8) : Bool := b = 0 ∨ b ∈ toks

namespace Cursor

/-- `while (s < es && test(*s)) s++;`, for as many bytes as there are up to `es`. -/
def advance (buf : List UInt8) (test : UInt8 → Bool) : Nat → Nat → Option Nat
  | 0, s => some s
  | left + 1, s => do
      let b ← buf[s]?
      if test b then advance buf test left (s + 1) else return s

/-- The `switch` of `gettoken`: the kind of the token, and its end. -/
def scan (buf : List UInt8) (es q : Nat) (b : UInt8) : Option (Kind × Nat) :=
  if b = 0 then
    return (.eof, q)
  else
    match Kind.ofByte b with
    | .gt => do
        let b ← buf[q + 1]?
        return if b = '>'.toUInt8 then (.append, q + 2) else (.gt, q + 1)
    | .word => do
        let eq ← advance buf (fun b => !strchr whitespace b && !strchr symbols b) (es - q) q
        return (.word, eq)
    | kind => return (kind, q + 1)

/-- `gettoken`: what it returns, `*q` and `*eq`, and the cursor. -/
def gettoken (buf : List UInt8) (es s : Nat) : Option (Kind × Nat × Nat × Nat) := do
  let q ← advance buf (strchr whitespace) (es - s) s
  let b ← buf[q]?
  let (kind, eq) ← scan buf es q b
  let s ← advance buf (strchr whitespace) (es - eq) eq
  return (kind, q, eq, s)

/-- `peek`: the cursor, and what it returns. -/
def peek (buf : List UInt8) (es s : Nat) (toks : List Char) : Option (Nat × Bool) := do
  let s ← advance buf (strchr whitespace) (es - s) s
  let b ← buf[s]?
  return (s, decide (b ≠ 0) && strchr (toks.map Char.toUInt8) b)

end Cursor

/-! ## The line in the buffer -/

/-- The buffer holds the line, the NUL behind it, and whatever is left of older lines. -/
theorem strlen_append {buf : List UInt8} (ended : 0 ∈ buf) :
    ∃ rest, buf = strlen buf ++ 0 :: rest := by
  have whole := (List.takeWhile_append_dropWhile (p := (· ≠ 0)) (l := buf)).symm
  cases left : buf.dropWhile (· ≠ 0) with
  | nil =>
      have none := List.dropWhile_eq_nil_iff.mp left 0 ended
      simp at none
  | cons b rest =>
      have zero : b = 0 := by
        have head := List.head?_dropWhile_not (fun b : UInt8 => decide (b ≠ 0)) buf
        rw [left] at head
        simpa using head
      rw [left, zero] at whole
      exact ⟨rest, whole⟩

namespace Cursor

variable
    {input rest : List UInt8}
    {es s k : Nat}
    {b : UInt8}

theorem read_byte (inside : k < input.length) :
    (input ++ 0 :: rest)[k]? = some input[k] := by
  rw [List.getElem?_append_left inside, List.getElem?_eq_getElem inside]

theorem read_end : (input ++ 0 :: rest)[input.length]? = some 0 := by simp

/-- A loop over bytes of the line ends in the line, or at its end. -/
theorem advance_line {test test' : UInt8 → Bool} (input_ne : 0 ∉ input)
    (same : ∀ b, b ≠ 0 → test b = test' b) (inside : s ≤ input.length) :
    ∃ s', advance (input ++ 0 :: rest) test (input.length - s) s = some s' ∧ s ≤ s' ∧
      s' ≤ input.length ∧ input.drop s' = (input.drop s).dropWhile test' := by
  induction left : input.length - s generalizing s with
  | zero =>
      have ended : input.drop s = [] := List.drop_eq_nil_of_le (by omega)
      exact ⟨s, rfl, Nat.le_refl s, inside, by rw [ended]; rfl⟩
  | succ left ih =>
      have more : s < input.length := by omega
      have black : input[s] ≠ 0 := fun zero => input_ne (zero ▸ List.getElem_mem more)
      rw [advance, read_byte more, List.drop_eq_getElem_cons more]
      by_cases skips : test' input[s] = true
      · rcases ih more (by omega) with ⟨s', found, after, within, rest'⟩
        refine ⟨s', ?_, Nat.le_of_succ_le after, within, ?_⟩
        · simp [same _ black, skips, found]
        · rw [rest', List.dropWhile_cons_of_pos skips]
      · refine ⟨s, by simp [same _ black, skips], Nat.le_refl s, inside, ?_⟩
        rw [List.dropWhile_cons_of_neg skips, List.drop_eq_getElem_cons more]

/-- The `switch` finds what the line has. -/
theorem scan_line {q : Nat} (input_ne : 0 ∉ input) (inside : q ≤ input.length) :
    ∃ b eq, (input ++ 0 :: rest)[q]? = some b ∧
      scan (input ++ 0 :: rest) input.length q b = some ((Sh.scan (input.drop q)).1, eq) ∧
      q ≤ eq ∧ eq ≤ input.length ∧ input.drop eq = (Sh.scan (input.drop q)).2 := by
  rcases Nat.eq_or_lt_of_le inside with rfl | more
  · refine ⟨0, input.length, read_end, ?_, Nat.le_refl _, Nat.le_refl _, ?_⟩
    · simp [scan, Sh.scan]
    · simp [Sh.scan]
  · have black : input[q] ≠ 0 := fun zero => input_ne (zero ▸ List.getElem_mem more)
    have here := List.drop_eq_getElem_cons more
    rw [here]
    refine ⟨input[q], ?_⟩
    simp only [Sh.scan, scan, if_neg black]
    cases kind : Kind.ofByte input[q] with
    | gt =>
        by_cases double : input[q + 1]? = some '>'.toUInt8
        · rcases List.getElem?_eq_some_iff.mp double with ⟨more', byte⟩
          refine ⟨q + 2, read_byte more, ?_, Nat.le_add_right q 2, more', ?_⟩
          · simp [read_byte more', byte, Kind.branch, double]
          · simp [Kind.branch, double]
        · refine ⟨q + 1, read_byte more, ?_, Nat.le_succ q, more, ?_⟩
          · rcases Nat.eq_or_lt_of_le more with last | more'
            · have nul : (0 : UInt8) ≠ '>'.toUInt8 := by decide
              rw [Nat.succ_eq_add_one] at last
              rw [last, read_end]
              simp [Kind.branch, ← last, nul]
            · have other : input[q + 1] ≠ '>'.toUInt8 := fun byte =>
                double (List.getElem?_eq_some_iff.mpr ⟨more', byte⟩)
              simp [read_byte more', other, Kind.branch, double]
          · simp [Kind.branch, double]
    | word =>
        have same : ∀ b, b ≠ 0 → (!strchr whitespace b && !strchr symbols b) = inWord b :=
          fun b other => by simp [strchr, inWord, other]
        rcases @advance_line input rest q _ _ input_ne same inside with
          ⟨eq, found, after, within, left⟩
        refine ⟨eq, read_byte more, by simp [found, Kind.branch], after, within, ?_⟩
        rw [left, here]
        rfl
    | eof | bar | lpar | rpar | semi | amp | lt | append =>
        exact ⟨q + 1, read_byte more, rfl, Nat.le_succ q, more, rfl⟩

/-- `gettoken` finds the token of the line, and stays in it. -/
theorem gettoken_line (input_ne : 0 ∉ input) (inside : s ≤ input.length) :
    ∃ kind q eq s', gettoken (input ++ 0 :: rest) input.length s = some (kind, q, eq, s') ∧
      s ≤ q ∧ q ≤ eq ∧ eq ≤ s' ∧ s' ≤ input.length ∧
      Sh.gettoken (input.drop s) =
        ({ kind := kind, q := input.drop q, eq := input.drop eq }, input.drop s') := by
  have white : ∀ b, b ≠ 0 → strchr whitespace b = isWhite b := fun b other => by
    simp [strchr, isWhite, other]
  rcases @advance_line input rest s _ _ input_ne white inside with
    ⟨q, toWord, before, within, word⟩
  rcases @scan_line input rest q input_ne within with
    ⟨b, eq, read, found, after, within', left⟩
  rcases @advance_line input rest eq _ _ input_ne white within' with
    ⟨s', toNext, next, last, behind⟩
  refine ⟨(Sh.scan (input.drop q)).1, q, eq, s', ?_, before, after, next, last, ?_⟩
  · simp [gettoken, toWord, read, found, toNext]
  · simp only [Sh.gettoken, skip, ← word, ← left, ← behind]

/-- `peek` looks at the next byte of the line, and stays in it. -/
theorem peek_line (input_ne : 0 ∉ input) (inside : s ≤ input.length) (toks : List Char) :
    ∃ s', peek (input ++ 0 :: rest) input.length s toks =
        some (s', (Sh.peek (input.drop s) toks).2) ∧
      s ≤ s' ∧ s' ≤ input.length ∧ (Sh.peek (input.drop s) toks).1 = input.drop s' := by
  have white : ∀ b, b ≠ 0 → strchr whitespace b = isWhite b := fun b other => by
    simp [strchr, isWhite, other]
  rcases @advance_line input rest s _ _ input_ne white inside with
    ⟨s', found, after, within, left⟩
  refine ⟨s', ?_, after, within, left.symm⟩
  simp only [Sh.peek, skip, ← left]
  rcases Nat.eq_or_lt_of_le within with rfl | more
  · simp [peek, found]
  · have black : input[s'] ≠ 0 := fun zero => input_ne (zero ▸ List.getElem_mem more)
    have read := @read_byte input rest s' more
    have head : (input.drop s').head? = some input[s'] := by
      rw [List.head?_drop, List.getElem?_eq_getElem more]
    rw [head]
    simp only [peek, found, read, strchr, black, Option.any_some, Option.bind_eq_bind,
      Option.bind_some, false_or, ne_eq, not_false_eq_true, decide_true, Bool.true_and,
      Option.pure_def]

end Cursor

/-! ## Command lines -/

/-- `gettoken` and `peek` at an index of the line, which ends at `es`. -/
structure Cursor.Follows (buf : List UInt8) (s : Nat) : Prop where
  gettoken : ∃ kind q eq s', Cursor.gettoken buf (strlen buf).length s = some (kind, q, eq, s') ∧
    s ≤ q ∧ q ≤ eq ∧ eq ≤ s' ∧ s' ≤ (strlen buf).length ∧
    Sh.gettoken ((strlen buf).drop s) =
      ({ kind := kind, q := (strlen buf).drop q, eq := (strlen buf).drop eq },
        (strlen buf).drop s')
  peek : ∀ toks, ∃ s', Cursor.peek buf (strlen buf).length s toks =
      some (s', (Sh.peek ((strlen buf).drop s) toks).2) ∧
    s ≤ s' ∧ s' ≤ (strlen buf).length ∧
    (Sh.peek ((strlen buf).drop s) toks).1 = (strlen buf).drop s'

theorem Cursor.follows {buf : List UInt8} {s : Nat} (ended : 0 ∈ buf)
    (inside : s ≤ (strlen buf).length) : Cursor.Follows buf s := by
  have line_ne : 0 ∉ strlen buf := by
    intro zero
    have other := List.mem_takeWhile_imp zero
    simp at other
  rcases strlen_append ended with ⟨rest, whole⟩
  have token := @gettoken_line (strlen buf) rest s line_ne inside
  have next := @peek_line (strlen buf) rest s line_ne inside
  rw [← whole] at token next
  exact ⟨token, next⟩

/--
The cursor stays in the line; the lines that derive from the grammar, as far as memory
permits, and no others give a tree, which is that of the derivation; the others end in a
panic of the parser or for want of memory; and the words of the tree, which are those of
the line, are strings that end with a NUL.
-/
theorem parsecmd_exact {buf : List UInt8} (ended : 0 ∈ buf) :
    (∀ s ≤ (strlen buf).length, Cursor.Follows buf s) ∧
    (∀ cmd, (∃ buf', parsecmd buf = .ok (cmd, buf')) ↔
      Derives .line (tokens (strlen buf)) cmd ∧ cmd.size ≤ MAXN) ∧
    (∀ failure, parsecmd buf = .error failure → failure ∈ refusals) ∧
    ∀ cmd buf', parsecmd buf = .ok (cmd, buf') →
      cmd.words.Perm (wordsOf (tokens (strlen buf))) ∧
      ∀ w ∈ cmd.words, cstring buf' (index (strlen buf) w.q) = w.text ∧
        index (strlen buf) w.q + w.text.length = index (strlen buf) w.eq ∧
        buf'[index (strlen buf) w.eq]? = some 0 := by
  refine ⟨fun s inside => Cursor.follows ended inside, parsecmd_iff buf, ?_, ?_⟩
  · intro failure failed
    rcases bind_error failed with out | ⟨cmd, _, failed⟩
    · exact parseall_refused out
    · cases failed
  · intro cmd buf' parsed
    rcases bind_ok parsed with ⟨cmd', built, parsed⟩
    cases parsed
    have perm := ((parseall_iff _ _).mp built).1.words
    refine ⟨perm, fun w mem => ?_⟩
    have inside := words_in _ w (perm.mem_iff.mp mem)
    refine ⟨parseall_strings built mem, inside.ends, ?_⟩
    have small : index (strlen buf) w.eq < buf.length := by
      rcases strlen_append ended with ⟨rest, whole⟩
      have longer := congrArg List.length whole
      rw [List.length_append, List.length_cons] at longer
      have before : index (strlen buf) w.eq ≤ (strlen buf).length := Nat.sub_le _ _
      omega
    rw [nulterminate_eq]
    have same : (clears (strlen buf) cmd.words buf).length = buf.length := clears_length
    rw [← same] at small
    rw [List.getElem?_eq_getElem small]
    have found := List.getElem?_eq_getElem small
    rw [clears_zero ⟨w, mem, rfl⟩ found]

/-- The line `(a b)&`, with something behind it. -/
theorem parsecmd_exact_block : ∃ cmd buf',
    parsecmd ("(a b)&".toList.map Char.toUInt8 ++ [0, 98]) = .ok (cmd, buf') ∧
      cmd.words.map Word.text = [[97], [98]] ∧
      ∀ w ∈ cmd.words,
        cstring buf' (index (strlen ("(a b)&".toList.map Char.toUInt8 ++ [0, 98])) w.q) =
          w.text := by
  have parsed : (parsecmd ("(a b)&".toList.map Char.toUInt8 ++ [0, 98])).toOption.any
      fun tree => tree.1.words.map Word.text = [[97], [98]] := by
    decide +kernel
  cases result : parsecmd ("(a b)&".toList.map Char.toUInt8 ++ [0, 98]) with
  | error failure =>
      rw [result] at parsed
      cases parsed
  | ok tree =>
      rw [result] at parsed
      have strings := ((parsecmd_exact (by decide)).2.2.2 tree.1 tree.2 result).2
      exact ⟨tree.1, tree.2, rfl, of_decide_eq_true parsed, fun w mem => (strings w mem).1⟩

/-! ## The panics of the parser -/

theorem Redirs.length_le {ts : List Token} {redirs : List Redir} (derived : Redirs ts redirs) :
    redirs.length ≤ ts.length := by
  induction derived with
  | nil => exact Nat.le_refl 0
  | cons _ _ _ ih =>
      simp only [List.length_cons]
      omega

theorem Args.length_le {ts : List Token} {argv : List Word} {redirs : List Redir}
    (derived : Args ts argv redirs) : redirs.length ≤ ts.length := by
  induction derived with
  | nil => exact Nat.le_refl 0
  | cons _ first _ ih =>
      have before := first.length_le
      simp only [List.cons_append, List.length_cons, List.length_append]
      omega

/-- Memory is used out only by lines of many tokens. -/
theorem Derives.size_le {symbol : Symbol} {ts : List Token} {cmd : Cmd}
    (derived : Derives symbol ts cmd) : cmd.size ≤ 168 + 192 * ts.length := by
  induction derived with
  | simple first args _ =>
      have before := first.length_le
      have after := args.length_le
      rw [size_redircmds, Cmd.size]
      simp only [List.length_append]
      omega
  | block _ _ _ last ih =>
      have after := last.length_le
      rw [size_redircmds]
      simp only [List.cons_append, List.length_cons, List.length_append]
      omega
  | single _ ih => exact ih
  | pipe _ _ _ ih ih' =>
      rw [Cmd.size]
      simp only [List.length_append, List.length_cons]
      omega
  | line _ _ ih =>
      rw [size_backcmds]
      simp only [List.length_append]
      omega
  | list _ _ _ _ ih ih' =>
      rw [Cmd.size, size_backcmds]
      simp only [List.length_append, List.length_cons]
      omega

/-- The line `a>` has no tree, and does not end in the panic of `parsecmd`. -/
theorem not_parsecmd_exact :
    ¬ ∀ buf : List UInt8, 0 ∈ buf → (∀ cmd, ¬ Derives .line (tokens (strlen buf)) cmd) →
      parsecmd buf = .error (.panic "syntax") := by
  intro always
  have failed : parsecmd ("a>".toList.map Char.toUInt8 ++ [0]) =
      .error (.panic "missing file for redirection") := by
    decide +kernel
  have none : ∀ cmd, ¬ Derives .line
      (tokens (strlen ("a>".toList.map Char.toUInt8 ++ [0]))) cmd := by
    intro cmd derived
    have few := tokens_length (strlen ("a>".toList.map Char.toUInt8 ++ [0]))
    have short : (strlen ("a>".toList.map Char.toUInt8 ++ [0])).length = 2 := by decide
    have fits : cmd.size ≤ MAXN := by
      have small := derived.size_le
      simp only [MAXN]
      omega
    rcases (parsecmd_iff _ cmd).mpr ⟨derived, fits⟩ with ⟨buf', parsed⟩
    rw [failed] at parsed
    cases parsed
  have wrong := always _ (by decide) none
  rw [failed] at wrong
  revert wrong
  decide

end PiKernel.Sh
