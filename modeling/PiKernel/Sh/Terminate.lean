import PiKernel.Sh.Complete

/-!
# The strings of a command

The words of a tree point into the line.  `nulterminate` writes a NUL at the end of each
word, after the whole line has been parsed: no end of a word lies inside another word, and
so every word becomes a string of its own.
-/

namespace PiKernel.Sh

/-- `s + strlen(s)` ends the line. -/
def strlen (buf : List UInt8) : Ptr := buf.takeWhile (· ≠ 0)

/-- The index in the buffer of a pointer into the line. -/
def index (line : Ptr) (p : Ptr) : Nat := line.length - p.length

/-- `*eq = 0` -/
def clear (line : Ptr) (buf : List UInt8) (eq : Ptr) : List UInt8 := buf.set (index line eq) 0

def nulterminate (line : Ptr) : Cmd → List UInt8 → List UInt8
  | .exec argv, buf => argv.foldl (fun buf word => clear line buf word.eq) buf
  | .redir cmd redir, buf => clear line (nulterminate line cmd buf) redir.file.eq
  | .pipe left right, buf => nulterminate line right (nulterminate line left buf)
  | .list left right, buf => nulterminate line right (nulterminate line left buf)
  | .back cmd, buf => nulterminate line cmd buf

/-- The tree, and the buffer that it points into. -/
def parsecmd (buf : List UInt8) : Except Failure (Cmd × List UInt8) := do
  let cmd ← parseall (strlen buf)
  return (cmd, nulterminate (strlen buf) cmd buf)

/-- The string at an index. -/
def cstring (buf : List UInt8) (k : Nat) : List UInt8 := (buf.drop k).takeWhile (· ≠ 0)

/-- The words of a tree, in the order of `nulterminate`. -/
def Cmd.words : Cmd → List Word
  | .exec argv => argv
  | .redir cmd last => cmd.words ++ [last.file]
  | .pipe left right | .list left right => left.words ++ right.words
  | .back cmd => cmd.words

/-! ## The words are words of the line -/

/-- The tokens that are words. -/
def wordsOf (ts : List Token) : List Word :=
  (ts.filter fun t => t.kind = .word).map Token.toWord

@[simp]
theorem wordsOf_append (ts us : List Token) : wordsOf (ts ++ us) = wordsOf ts ++ wordsOf us := by
  simp [wordsOf]

theorem wordsOf_cons (t : Token) (ts : List Token) :
    wordsOf (t :: ts) = (if t.kind = .word then [t.toWord] else []) ++ wordsOf ts := by
  unfold wordsOf
  rw [List.filter_cons]
  split <;> simp_all

theorem words_redircmds (redirs : List Redir) (cmd : Cmd) :
    (redircmds cmd redirs).words = cmd.words ++ redirs.map Redir.file := by
  induction redirs generalizing cmd with
  | nil => simp [redircmds]
  | cons redir redirs ih =>
      calc (redircmds (.redir cmd redir) redirs).words
          = (Cmd.redir cmd redir).words ++ redirs.map Redir.file := ih _
        _ = cmd.words ++ (redir :: redirs).map Redir.file := by simp [Cmd.words]

theorem words_backcmds (n : Nat) (cmd : Cmd) : (backcmds n cmd).words = cmd.words := by
  induction n generalizing cmd with
  | zero => rfl
  | succ n ih => exact ih (.back cmd)

theorem Redirs.words {ts : List Token} {redirs : List Redir} (derived : Redirs ts redirs) :
    redirs.map Redir.file = wordsOf ts := by
  induction derived with
  | nil => rfl
  | @cons op file redir ts redirs word of rest ih =>
      have other : op.kind ≠ .word := by
        intro same
        rw [same] at of
        cases of
      have mine : redir.file = file.toWord := by
        unfold redirection at of
        split at of <;> cases of <;> rfl
      simp [wordsOf_cons, other, word, ih, mine]

theorem Args.words {ts : List Token} {argv : List Word} {redirs : List Redir}
    (derived : Args ts argv redirs) : (argv ++ redirs.map Redir.file).Perm (wordsOf ts) := by
  induction derived with
  | nil => exact List.Perm.refl _
  | @cons t ts us argv redirs more word first rest ih =>
      rw [List.cons_append, List.cons_append, wordsOf_cons, if_pos word, wordsOf_append,
        List.map_append, ← first.words]
      refine List.Perm.cons _ ?_
      exact (List.perm_append_comm_assoc _ _ _).trans (ih.append_left _)

theorem Amps.words {ts : List Token} (amps : Amps ts) : wordsOf ts = [] := by
  induction ts with
  | nil => rfl
  | cons t ts ih =>
      have mine := amps t List.mem_cons_self
      have others := ih fun u mem => amps u (List.mem_cons_of_mem t mem)
      simp [wordsOf_cons, mine, others]

/-- The tree has every word of the line once. -/
theorem Derives.words {symbol : Symbol} {ts : List Token} {cmd : Cmd}
    (derived : Derives symbol ts cmd) : cmd.words.Perm (wordsOf ts) := by
  induction derived with
  | @simple ts us argv redirs more first args few =>
      rw [words_redircmds, wordsOf_append, ← first.words, List.map_append]
      exact (List.perm_append_comm_assoc _ _ _).trans (args.words.append_left _)
  | @block l r ts us cmd redirs lpar line rpar last ih =>
      rw [words_redircmds, List.cons_append, wordsOf_cons, wordsOf_append, wordsOf_cons,
        last.words]
      simpa [lpar, rpar] using ih.append_right (wordsOf us)
  | single exec ih => exact ih
  | @pipe t ts us left right exec bar rest first second =>
      rw [wordsOf_append, wordsOf_cons, bar]
      simpa [Cmd.words] using first.append second
  | @line ts amps cmd pipe back ih =>
      rw [words_backcmds, wordsOf_append, back.words]
      simpa using ih
  | @list t ts amps us cmd right pipe back semi rest first second =>
      rw [wordsOf_append, wordsOf_append, back.words, wordsOf_cons, semi]
      simpa [Cmd.words, words_backcmds] using first.append second

/-! ## The words of a line do not touch -/

/-- A word token: the longest word at its beginning. -/
structure Word.In (w : Word) (line : Ptr) : Prop where
  suffix : w.q <:+ line
  whole : w.eq = w.q.dropWhile inWord
  filled : ∃ b rest, w.q = b :: rest ∧ inWord b = true

theorem gettoken_in {s : Ptr} (word : (gettoken s).1.kind = .word) :
    (gettoken s).1.toWord.In s := by
  have suffix := skip_suffix s
  unfold gettoken at word ⊢
  dsimp only at word ⊢
  cases skipped : skip s with
  | nil =>
      rw [skipped] at word
      cases word
  | cons b rest =>
      rw [skipped] at word suffix
      have black := skip_head skipped
      cases kind : Kind.ofByte b with
      | word =>
          have mine : inWord b = true := by
            simpa [inWord, black] using ofByte_word.mp kind
          exact ⟨suffix, by simp [scan, kind, Kind.branch], b, rest, rfl, mine⟩
      | gt =>
          simp only [scan, kind, Kind.branch] at word
          split at word <;> cases word
      | _ => simp [scan, kind, Kind.branch] at word

theorem Word.In.mono {w : Word} {s line : Ptr} (inside : w.In s) (suffix : s <:+ line) :
    w.In line :=
  ⟨inside.suffix.trans suffix, inside.whole, inside.filled⟩

theorem words_in (line : Ptr) : ∀ w ∈ wordsOf (tokens line), w.In line := by
  intro w mem
  by_cases eof : (gettoken line).1.kind = .eof
  · rw [tokens_eof eof] at mem
    cases mem
  · have shorter := gettoken_length eof
    rw [tokens_cons eof, wordsOf_cons, List.mem_append] at mem
    rcases mem with mem | mem
    · split at mem
      · next word =>
          rw [List.mem_singleton] at mem
          exact mem ▸ gettoken_in word
      · cases mem
    · exact (words_in (gettoken line).2 w mem).mono (gettoken_suffix line)
termination_by line.length

/-- A word ends before the next one begins. -/
theorem words_apart (line : Ptr) :
    (wordsOf (tokens line)).Pairwise fun v w => w.q.length < v.eq.length := by
  by_cases eof : (gettoken line).1.kind = .eof
  · rw [tokens_eof eof]
    exact List.Pairwise.nil
  · have shorter := gettoken_length eof
    have rest := words_apart (gettoken line).2
    rw [tokens_cons eof, wordsOf_cons]
    split
    · next word =>
        refine List.pairwise_cons.mpr ⟨fun w mem => ?_, rest⟩
        have inside := words_in _ w mem
        have near : w.q <:+ (gettoken line).1.eq := inside.suffix.trans (skip_suffix _)
        refine Nat.lt_of_le_of_ne near.length_le fun same => ?_
        -- a word does not begin where one ends
        have ended := List.head?_dropWhile_not inWord (gettoken line).1.q
        rcases inside.filled with ⟨b, rest, begins, mine⟩
        rw [← (gettoken_in word).whole, ← near.eq_of_length same, begins] at ended
        simp [mine] at ended
    · exact rest
termination_by line.length

/-- Two words of a line. -/
def Word.Apart (v w : Word) : Prop :=
  v = w ∨ w.q.length < v.eq.length ∨ v.q.length < w.eq.length

theorem words_separate {line : Ptr} {v w : Word} (first : v ∈ wordsOf (tokens line))
    (second : w ∈ wordsOf (tokens line)) : v.Apart w :=
  List.Pairwise.forall_of_forall_of_flip (fun _ _ => .inl rfl)
    ((words_apart line).imp fun before => .inr (.inl before))
    ((words_apart line).imp fun after => .inr (.inr after)) first second

section In

variable
    {w : Word}
    {line : Ptr}

theorem Word.In.begins (inside : w.In line) : w.text ++ w.eq = w.q := by
  have suffix : w.eq <:+ w.q := inside.whole ▸ List.dropWhile_suffix inWord
  exact List.suffix_iff_eq_append.mp suffix

theorem Word.In.length (inside : w.In line) : w.text.length + w.eq.length = w.q.length := by
  rw [← List.length_append, inside.begins]

theorem Word.In.ends (inside : w.In line) :
    index line w.q + w.text.length = index line w.eq := by
  have shorter := inside.suffix.length_le
  have parts := inside.length
  unfold index
  omega

/-- No word ends inside another one. -/
theorem Word.Apart.ends {v : Word} (apart : v.Apart w) (first : v.In line) (second : w.In line)
    {j : Nat} (small : j < w.text.length) : index line v.eq ≠ index line w.q + j := by
  have parts := first.length
  have parts' := second.length
  have shorter := first.suffix.length_le
  have shorter' := second.suffix.length_le
  unfold index
  rcases apart with rfl | before | after
  · omega
  · omega
  · omega

end In

/-! ## The writes of nulterminate -/

section Writes

variable
    {line : Ptr}
    {words : List Word}
    {buf : List UInt8}
    {k : Nat}

def clears (line : Ptr) (words : List Word) (buf : List UInt8) : List UInt8 :=
  words.foldl (fun buf word => clear line buf word.eq) buf

theorem clears_append (more : List Word) :
    clears line (words ++ more) buf = clears line more (clears line words buf) :=
  List.foldl_append

theorem nulterminate_eq (cmd : Cmd) : nulterminate line cmd buf = clears line cmd.words buf := by
  induction cmd generalizing buf with
  | exec argv => rfl
  | redir cmd last ih =>
      rw [nulterminate, Cmd.words, clears_append, ih]
      rfl
  | pipe left right first second =>
      rw [nulterminate, Cmd.words, clears_append, first, second]
  | list left right first second =>
      rw [nulterminate, Cmd.words, clears_append, first, second]
  | back cmd ih => exact ih

theorem clears_length : (clears line words buf).length = buf.length := by
  induction words generalizing buf with
  | nil => rfl
  | cons word words ih => exact ih.trans List.length_set

/-- A byte at which no word ends stays. -/
theorem clears_kept (other : ∀ w ∈ words, index line w.eq ≠ k) :
    (clears line words buf)[k]? = buf[k]? := by
  induction words generalizing buf with
  | nil => rfl
  | cons word words ih =>
      have mine := other word List.mem_cons_self
      have rest : (clears line words (clear line buf word.eq))[k]? = (clear line buf word.eq)[k]? :=
        ih fun w mem => other w (List.mem_cons_of_mem word mem)
      exact rest.trans (List.getElem?_set_ne mine)

theorem clears_zero (ended : ∃ w ∈ words, index line w.eq = k) {b : UInt8}
    (found : (clears line words buf)[k]? = some b) : b = 0 := by
  induction words generalizing buf with
  | nil =>
      rcases ended with ⟨w, mem, _⟩
      cases mem
  | cons word words ih =>
      by_cases later : ∃ w ∈ words, index line w.eq = k
      · exact ih later found
      · have other : ∀ w ∈ words, index line w.eq ≠ k := fun w mem same => later ⟨w, mem, same⟩
        have same : index line word.eq = k := by
          rcases ended with ⟨w, mem, same⟩
          rcases List.mem_cons.mp mem with rfl | mem
          · exact same
          · exact absurd same (other w mem)
        have kept : (clear line buf word.eq)[k]? = some b := (clears_kept other).symm.trans found
        rw [clear, same, List.getElem?_set_self'] at kept
        cases filled : buf[k]? with
        | none => simp [filled] at kept
        | some a => simpa [filled] using kept.symm

end Writes

/-! ## The strings -/

theorem cstring_eq {buf text : List UInt8} {k : Nat}
    (same : ∀ j < text.length, buf[k + j]? = text[j]?)
    (ended : ∀ b, buf[k + text.length]? = some b → b = 0) (filled : ∀ b ∈ text, b ≠ 0) :
    cstring buf k = text := by
  have parts : buf.drop k = text ++ buf.drop (k + text.length) := by
    ext j : 1
    rw [List.getElem?_drop, List.getElem?_append]
    split
    · next inside => exact same j inside
    · next outside => rw [List.getElem?_drop, Nat.add_assoc, Nat.add_sub_cancel' (by omega)]
  have stop : (buf.drop (k + text.length)).takeWhile (· ≠ 0) = [] := by
    cases rest : buf.drop (k + text.length) with
    | nil => rfl
    | cons b rest' =>
        have first : buf[k + text.length]? = some b := by
          rw [← Nat.add_zero (k + text.length), ← List.getElem?_drop, rest]
          rfl
        simp [ended b first]
  unfold cstring
  rw [parts, List.takeWhile_append_of_pos (by simpa using filled), stop, List.append_nil]

theorem Word.In.getElem {buf : List UInt8} {w : Word} {j : Nat} (inside : w.In (strlen buf))
    (small : j < w.text.length) : buf[index (strlen buf) w.q + j]? = w.text[j]? := by
  have line : strlen buf ++ buf.dropWhile (· ≠ 0) = buf := List.takeWhile_append_dropWhile
  rcases inside.suffix with ⟨before, whole⟩
  have start : index (strlen buf) w.q = before.length := by
    rw [index, ← whole, List.length_append, Nat.add_sub_cancel]
  rw [start]
  conv =>
    lhs
    rw [← line, ← whole, ← inside.begins, List.append_assoc, List.append_assoc]
  rw [List.getElem?_append_right (Nat.le_add_right _ _), Nat.add_sub_cancel_left,
    List.getElem?_append_left small]

/-- Where a word ends nothing else begins, so that each is a string of its own. -/
theorem parseall_strings {buf : List UInt8} {cmd : Cmd} {w : Word}
    (built : parseall (strlen buf) = .ok cmd) (mem : w ∈ cmd.words) :
    cstring (nulterminate (strlen buf) cmd buf) (index (strlen buf) w.q) = w.text := by
  have perm := ((parseall_iff _ _).mp built).1.words
  rw [nulterminate_eq]
  have mine := perm.mem_iff.mp mem
  have inside := words_in _ w mine
  apply cstring_eq
  · intro j small
    have other : ∀ v ∈ cmd.words, index (strlen buf) v.eq ≠ index (strlen buf) w.q + j := by
      intro v mem'
      have yours := perm.mem_iff.mp mem'
      exact (words_separate yours mine).ends (words_in _ v yours) inside small
    rw [clears_kept other]
    exact inside.getElem small
  · intro b found
    rw [inside.ends] at found
    exact clears_zero ⟨w, mem, rfl⟩ found
  · intro b mem'
    have mem'' : b ∈ w.q := inside.begins ▸ List.mem_append_left _ mem'
    simpa using List.mem_takeWhile_imp (inside.suffix.subset mem'')

theorem parsecmd_iff (buf : List UInt8) (cmd : Cmd) :
    (∃ buf', parsecmd buf = .ok (cmd, buf')) ↔
      Derives .line (tokens (strlen buf)) cmd ∧ cmd.size ≤ MAXN := by
  rw [← parseall_iff]
  constructor
  · rintro ⟨buf', parsed⟩
    rcases bind_ok parsed with ⟨cmd', built, parsed⟩
    cases parsed
    exact built
  · intro built
    unfold parsecmd
    simp [built]

/-- The parser returns the trees of the grammar, as far as memory permits. -/
theorem parsecmd_grammar (buf : List UInt8) :
    parsecmd buf ≠ .error .fuel ∧
    ∀ cmd, (∃ buf', parsecmd buf = .ok (cmd, buf')) ↔
      Derives .line (tokens (strlen buf)) cmd ∧ cmd.size ≤ MAXN := by
  refine ⟨?_, parsecmd_iff buf⟩
  intro failed
  rcases bind_error failed with out | ⟨cmd, _, failed⟩
  · exact absurd (parseall_refused out) (by decide)
  · cases failed

/-- Each word of the tree is the string that its pointer points to, and no other byte of
the buffer changes. -/
theorem parsecmd_strings {buf buf' : List UInt8} {cmd : Cmd}
    (parsed : parsecmd buf = .ok (cmd, buf')) :
    cmd.words.Perm (wordsOf (tokens (strlen buf))) ∧
    (∀ w ∈ cmd.words, cstring buf' (index (strlen buf) w.q) = w.text) ∧
    buf'.length = buf.length ∧
    ∀ k, (∀ w ∈ cmd.words, index (strlen buf) w.eq ≠ k) → buf'[k]? = buf[k]? := by
  rcases bind_ok parsed with ⟨cmd', built, parsed⟩
  cases parsed
  refine ⟨((parseall_iff _ _).mp built).1.words, fun w mem => parseall_strings built mem, ?_⟩
  rw [nulterminate_eq]
  exact ⟨clears_length, fun k other => clears_kept other⟩

def sample : List UInt8 := "(a>b<c;d e)&\n".toList.map Char.toUInt8 ++ [0, 0]

theorem parsecmd_strings_sample : ∃ cmd buf', parsecmd sample = .ok (cmd, buf') ∧
    ∀ w ∈ cmd.words, cstring buf' (index (strlen sample) w.q) = w.text := by
  have parsed : (parsecmd sample).isOk = true := by decide +kernel
  cases result : parsecmd sample with
  | error failure =>
      rw [result] at parsed
      cases parsed
  | ok tree => exact ⟨tree.1, tree.2, rfl, (parsecmd_strings result).2.1⟩

end PiKernel.Sh
