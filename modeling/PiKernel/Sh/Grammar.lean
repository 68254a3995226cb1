import PiKernel.Sh.Parser

/-!
# The grammar of command lines

    line   = pipe {'&'} [';' line]
    pipe   = exec ['|' pipe]
    exec   = '(' line ')' redirs | redirs {word redirs}
    redirs = {('<' | '>' | '>>') word}

The parser returns a tree if and only if the tokens of the line derive from this grammar
with fewer than `MAXARGS` words in an `exec`, and the nodes of the tree fit into memory;
the tree is that of the derivation.
-/

namespace PiKernel.Sh

/-! ## Derivations -/

inductive Redirs : List Token → List Redir → Prop where
  | nil : Redirs [] []
  | cons {op file : Token} {redir : Redir} {ts : List Token} {redirs : List Redir}
      (word : file.kind = .word) (of : redirection file.toWord op.kind = some redir)
      (rest : Redirs ts redirs) : Redirs (op :: file :: ts) (redir :: redirs)

/-- Words, each followed by redirections. -/
inductive Args : List Token → List Word → List Redir → Prop where
  | nil : Args [] [] []
  | cons {t : Token} {ts us : List Token} {argv : List Word} {redirs more : List Redir}
      (word : t.kind = .word) (first : Redirs ts redirs) (rest : Args us argv more) :
      Args (t :: ts ++ us) (t.toWord :: argv) (redirs ++ more)

inductive Symbol where
  | line
  | pipe
  | exec

/-- `{'&'}` -/
def Amps (ts : List Token) : Prop := ∀ t ∈ ts, t.kind = .amp

/-- Each `&` wraps the command. -/
def backcmds : Nat → Cmd → Cmd
  | 0, cmd => cmd
  | n + 1, cmd => backcmds n (.back cmd)

inductive Derives : Symbol → List Token → Cmd → Prop where
  | simple {ts us : List Token} {argv : List Word} {redirs more : List Redir}
      (first : Redirs ts redirs) (args : Args us argv more) (few : argv.length < MAXARGS) :
      Derives .exec (ts ++ us) (redircmds (.exec argv) (redirs ++ more))
  | block {l r : Token} {ts us : List Token} {cmd : Cmd} {redirs : List Redir}
      (lpar : l.kind = .lpar) (line : Derives .line ts cmd) (rpar : r.kind = .rpar)
      (last : Redirs us redirs) : Derives .exec (l :: ts ++ r :: us) (redircmds cmd redirs)
  | single {ts : List Token} {cmd : Cmd} (exec : Derives .exec ts cmd) : Derives .pipe ts cmd
  | pipe {t : Token} {ts us : List Token} {left right : Cmd} (exec : Derives .exec ts left)
      (bar : t.kind = .bar) (rest : Derives .pipe us right) :
      Derives .pipe (ts ++ t :: us) (.pipe left right)
  | line {ts amps : List Token} {cmd : Cmd} (pipe : Derives .pipe ts cmd) (back : Amps amps) :
      Derives .line (ts ++ amps) (backcmds amps.length cmd)
  | list {t : Token} {ts amps us : List Token} {cmd right : Cmd} (pipe : Derives .pipe ts cmd)
      (back : Amps amps) (semi : t.kind = .semi) (rest : Derives .line us right) :
      Derives .line (ts ++ amps ++ t :: us) (.list (backcmds amps.length cmd) right)

/-! ## Tokens at the cursor -/

section Cursor

variable
    {s : Ptr}
    {t : Token}
    {ts : List Token}

theorem tokens_eof (eof : (gettoken s).1.kind = .eof) : tokens s = [] := by
  rw [tokens, if_pos eof]

theorem tokens_cons (found : (gettoken s).1.kind ≠ .eof) :
    tokens s = (gettoken s).1 :: tokens (gettoken s).2 := by
  rw [tokens, if_neg found]

theorem gettoken_of_tokens (whole : tokens s = t :: ts) :
    (gettoken s).1 = t ∧ tokens (gettoken s).2 = ts ∧ t.kind ≠ .eof := by
  by_cases eof : (gettoken s).1.kind = .eof
  · rw [tokens_eof eof] at whole
    cases whole
  · rw [tokens_cons eof] at whole
    cases whole
    exact ⟨rfl, rfl, eof⟩

theorem eof_of_tokens (whole : tokens s = []) : (gettoken s).1.kind = .eof := by
  by_contra found
  rw [tokens_cons found] at whole
  cases whole

/-- The kind of the first token; 0 if there is none. -/
def first (ts : List Token) : Kind := (ts.head?.map Token.kind).getD .eof

theorem first_tokens (s : Ptr) : first (tokens s) = (gettoken s).1.kind := by
  by_cases eof : (gettoken s).1.kind = .eof
  · rw [tokens_eof eof, eof]
    rfl
  · rw [tokens_cons eof]
    rfl

theorem tokens_length (s : Ptr) : (tokens s).length ≤ s.length := by
  by_cases eof : (gettoken s).1.kind = .eof
  · rw [tokens_eof eof]
    exact Nat.zero_le _
  · rw [tokens_cons eof, List.length_cons]
    have shorter := gettoken_length eof
    exact Nat.lt_of_le_of_lt (tokens_length (gettoken s).2) shorter
termination_by s.length

/-! ## What the calls of peek find -/

theorem peek_redirs :
    (peek s ['<', '>']).2 = true ↔ first (tokens s) ∈ [.lt, .gt, .append] := by
  rw [first_tokens]
  exact peek_iff ['<', '>'] [.lt, .gt, .append] (by decide) (by intro kind; cases kind <;> decide)

theorem peek_args :
    (peek s ['|', ')', '&', ';']).2 = true ↔ first (tokens s) ∈ [.bar, .rpar, .amp, .semi] := by
  rw [first_tokens]
  exact peek_iff ['|', ')', '&', ';'] [.bar, .rpar, .amp, .semi] (by decide)
    (by intro kind; cases kind <;> decide)

theorem peek_amp : (peek s ['&']).2 = true ↔ first (tokens s) = .amp := by
  rw [first_tokens]
  exact (peek_iff ['&'] [.amp] (by decide) (by intro kind; cases kind <;> decide)).trans
    List.mem_singleton

theorem peek_semi : (peek s [';']).2 = true ↔ first (tokens s) = .semi := by
  rw [first_tokens]
  exact (peek_iff [';'] [.semi] (by decide) (by intro kind; cases kind <;> decide)).trans
    List.mem_singleton

theorem peek_bar : (peek s ['|']).2 = true ↔ first (tokens s) = .bar := by
  rw [first_tokens]
  exact (peek_iff ['|'] [.bar] (by decide) (by intro kind; cases kind <;> decide)).trans
    List.mem_singleton

theorem peek_lpar : (peek s ['(']).2 = true ↔ first (tokens s) = .lpar := by
  rw [first_tokens]
  exact (peek_iff ['('] [.lpar] (by decide) (by intro kind; cases kind <;> decide)).trans
    List.mem_singleton

theorem peek_rpar : (peek s [')']).2 = true ↔ first (tokens s) = .rpar := by
  rw [first_tokens]
  exact (peek_iff [')'] [.rpar] (by decide) (by intro kind; cases kind <;> decide)).trans
    List.mem_singleton

end Cursor

/-! ## What a call reads -/

/-- A call reads some tokens, and takes some memory. -/
structure Reads (s s' : Ptr) (i i' : Nat) (ts : List Token) (size : Nat) : Prop where
  whole : tokens s = ts ++ tokens s'
  shorter : s'.length ≤ s.length
  used : i' = i + size
  room : i ≤ MAXN → i' ≤ MAXN

namespace Reads

variable
    {s s₁ s₂ : Ptr}
    {i i₁ i₂ : Nat}
    {ts us : List Token}
    {size size' : Nat}

theorem trans (first : Reads s s₁ i i₁ ts size) (second : Reads s₁ s₂ i₁ i₂ us size') :
    Reads s s₂ i i₂ (ts ++ us) (size + size') where
  whole := by rw [first.whole, second.whole, List.append_assoc]
  shorter := second.shorter.trans first.shorter
  used := by rw [second.used, first.used, Nat.add_assoc]
  room fits := second.room (first.room fits)

theorem skip (s : Ptr) (i : Nat) : Reads s (skip s) i i [] 0 where
  whole := (tokens_skip s).symm
  shorter := (skip_suffix s).length_le
  used := rfl
  room fits := fits

theorem token (found : (gettoken s).1.kind ≠ .eof) (i : Nat) :
    Reads s (gettoken s).2 i i [(gettoken s).1] 0 where
  whole := tokens_cons found
  shorter := (gettoken_suffix s).length_le
  used := rfl
  room fits := fits

/-- At the end of the line, there is no token to read. -/
theorem eof (found : (gettoken s).1.kind = .eof) (i : Nat) :
    Reads s (gettoken s).2 i i [] 0 where
  whole := by
    have done : tokens (gettoken s).2 = [] := by
      apply tokens_eof
      rw [gettoken_eof] at found
      have short := (gettoken_suffix s).length_le
      have empty : (gettoken s).2 = [] := by
        unfold gettoken
        rw [found]
        rfl
      rw [empty]
      rfl
    rw [tokens_eof found, done]
    rfl
  shorter := (gettoken_suffix s).length_le
  used := rfl
  room fits := fits

theorem malloc {sz : Nat} (s : Ptr) (allocated : malloc1 sz i = .ok i₁) :
    Reads s s i i₁ [] sz := by
  unfold malloc1 at allocated
  split at allocated <;> cases allocated
  next fits =>
  exact ⟨rfl, Nat.le_refl _, rfl, fun _ => Nat.le_of_not_lt fits⟩

end Reads

theorem bind_ok {α β : Type} {x : Except Failure α} {f : α → Except Failure β} {b : β}
    (ok : (x >>= f) = .ok b) : ∃ a, x = .ok a ∧ f a = .ok b := by
  cases x with
  | error e => cases ok
  | ok a => exact ⟨a, rfl, ok⟩

theorem size_redircmds (cmd : Cmd) (redirs : List Redir) :
    (redircmds cmd redirs).size = cmd.size + 40 * redirs.length := by
  unfold redircmds
  induction redirs generalizing cmd with
  | nil => rfl
  | cons redir redirs ih =>
      rw [List.foldl_cons, ih, Cmd.size, List.length_cons]
      omega

theorem size_backcmds (n : Nat) (cmd : Cmd) : (backcmds n cmd).size = cmd.size + 16 * n := by
  induction n generalizing cmd with
  | zero => rfl
  | succ n ih =>
      rw [backcmds, ih, Cmd.size]
      omega

/-! ## Soundness -/

theorem parseredirs_sound {fuel : Nat} {s s' : Ptr} {i i' : Nat} {redirs : List Redir}
    (ok : parseredirs fuel s i = .ok (redirs, s', i')) :
    ∃ ts, Redirs ts redirs ∧ Reads s s' i i' ts (40 * redirs.length) := by
  induction fuel generalizing s i redirs with
  | zero => cases ok
  | succ fuel ih =>
      simp only [parseredirs] at ok
      split at ok
      · next more =>
          have kind := peek_redirs.mp more
          rw [first_tokens] at kind
          have found : (gettoken s).1.kind ≠ .eof := by
            intro eof
            rw [eof] at kind
            simp at kind
          split at ok
          · cases ok
          · next word =>
              have word := Decidable.not_not.mp word
              have found' : (gettoken (gettoken s).2).1.kind ≠ .eof := by simp [word]
              split at ok
              · next never =>
                  simp only [List.mem_cons, List.not_mem_nil, or_false] at kind
                  rcases kind with kind | kind | kind <;> rw [kind] at never <;> cases never
              · next redir of =>
                  rcases bind_ok ok with ⟨i₁, allocated, ok⟩
                  rcases bind_ok ok with ⟨⟨redirs', s₂, i₂⟩, rest, ok⟩
                  cases ok
                  rcases ih rest with ⟨ts, derived, reads⟩
                  refine ⟨_, .cons word of derived, ?_⟩
                  have whole := (((Reads.token found i).trans (.token found' i)).trans
                    (.malloc _ allocated)).trans reads
                  simpa [Nat.mul_add, Nat.add_comm] using whole
      · cases ok
        exact ⟨[], .nil, .skip s _⟩

theorem parseargs_sound {fuel argc : Nat} {s s' : Ptr} {i i' : Nat} {argv : List Word}
    {redirs : List Redir} (ok : parseargs fuel s i argc = .ok (argv, redirs, s', i'))
    (few : argc < MAXARGS) :
    ∃ ts, Args ts argv redirs ∧ argc + argv.length < MAXARGS ∧
      Reads s s' i i' ts (40 * redirs.length) := by
  induction fuel generalizing s i argc argv redirs with
  | zero => cases ok
  | succ fuel ih =>
      simp only [parseargs] at ok
      split at ok
      · cases ok
        exact ⟨[], .nil, few, .skip s _⟩
      · split at ok
        · next eof =>
            cases ok
            exact ⟨[], .nil, few, .eof eof _⟩
        · next found =>
            split at ok
            · cases ok
            · next word =>
                have word := Decidable.not_not.mp word
                split at ok
                · cases ok
                · next room =>
                    rcases bind_ok ok with ⟨⟨first, s₁, i₁⟩, firsts, ok⟩
                    rcases bind_ok ok with ⟨⟨argv', more, s₂, i₂⟩, rest, ok⟩
                    cases ok
                    rcases parseredirs_sound firsts with ⟨ts, derived, reads⟩
                    rcases ih rest (Nat.lt_of_not_le room) with ⟨us, args, few', reads'⟩
                    refine ⟨_, .cons word derived args, ?_, ?_⟩
                    · change argc + (argv'.length + 1) < MAXARGS
                      omega
                    · have whole := ((Reads.token found i).trans reads).trans reads'
                      simpa [Nat.mul_add] using whole

theorem parsebacks_sound {fuel : Nat} {s s' : Ptr} {i i' : Nat} {cmd cmd' : Cmd}
    (ok : parsebacks fuel cmd s i = .ok (cmd', s', i')) :
    ∃ ts, Amps ts ∧ cmd' = backcmds ts.length cmd ∧ Reads s s' i i' ts (16 * ts.length) := by
  induction fuel generalizing s i cmd with
  | zero => cases ok
  | succ fuel ih =>
      simp only [parsebacks] at ok
      split at ok
      · next more =>
          have kind := peek_amp.mp more
          rw [first_tokens] at kind
          rcases bind_ok ok with ⟨i₁, allocated, ok⟩
          rcases ih ok with ⟨ts, amps, rfl, reads⟩
          refine ⟨(gettoken s).1 :: ts, ?_, rfl, ?_⟩
          · intro t mem
            rcases List.mem_cons.mp mem with rfl | mem
            · exact kind
            · exact amps t mem
          · have whole := ((Reads.token (by simp [kind]) i).trans (.malloc _ allocated)).trans
              reads
            simpa [Nat.mul_add, Nat.add_comm] using whole
      · cases ok
        exact ⟨[], by simp [Amps], rfl, .skip s _⟩

/-- What is returned is derived from what is read. -/
theorem parse_sound (fuel : Nat) :
    (∀ s i cmd s' i', parseline fuel s i = .ok (cmd, s', i') →
      ∃ ts, Derives .line ts cmd ∧ Reads s s' i i' ts cmd.size) ∧
    (∀ s i cmd s' i', parsepipe fuel s i = .ok (cmd, s', i') →
      ∃ ts, Derives .pipe ts cmd ∧ Reads s s' i i' ts cmd.size) ∧
    (∀ s i cmd s' i', parseexec fuel s i = .ok (cmd, s', i') →
      ∃ ts, Derives .exec ts cmd ∧ Reads s s' i i' ts cmd.size) ∧
    (∀ s i cmd s' i', parseblock fuel s i = .ok (cmd, s', i') →
      ∃ ts, Derives .exec ts cmd ∧ Reads s s' i i' ts cmd.size) := by
  induction fuel with
  | zero =>
      refine ⟨?_, ?_, ?_, ?_⟩ <;> intro s i cmd s' i' ok
      · simp [parseline] at ok
      · simp [parsepipe] at ok
      · simp [parseexec] at ok
      · simp [parseblock] at ok
  | succ fuel ih =>
      rcases ih with ⟨line, pipe, exec, block⟩
      refine ⟨?_, ?_, ?_, ?_⟩ <;> intro s i cmd s' i' ok
      · rw [parseline] at ok
        rcases bind_ok ok with ⟨⟨first, s₁, i₁⟩, firsts, ok⟩
        rcases bind_ok ok with ⟨⟨backed, s₂, i₂⟩, backs, ok⟩
        rcases pipe _ _ _ _ _ firsts with ⟨ts, derived, reads⟩
        rcases parsebacks_sound backs with ⟨amps, all, rfl, reads'⟩
        have size := size_backcmds amps.length first
        dsimp only at ok
        split at ok
        · next more =>
            have kind := peek_semi.mp more
            rw [first_tokens] at kind
            rcases bind_ok ok with ⟨⟨right, s₃, i₃⟩, rest, ok⟩
            rcases bind_ok ok with ⟨i₄, allocated, ok⟩
            cases ok
            rcases line _ _ _ _ _ rest with ⟨us, derived', reads''⟩
            refine ⟨_, .list derived all kind derived', ?_⟩
            have whole := (((reads.trans reads').trans (.token (by simp [kind]) _)).trans
              reads'').trans (.malloc _ allocated)
            simpa [Cmd.size, size, Nat.add_assoc] using whole
        · cases ok
          refine ⟨_, .line derived all, ?_⟩
          have whole := (reads.trans reads').trans (.skip s₂ _)
          simpa [size] using whole
      · rw [parsepipe] at ok
        rcases bind_ok ok with ⟨⟨first, s₁, i₁⟩, firsts, ok⟩
        rcases exec _ _ _ _ _ firsts with ⟨ts, derived, reads⟩
        dsimp only at ok
        split at ok
        · next more =>
            have kind := peek_bar.mp more
            rw [first_tokens] at kind
            rcases bind_ok ok with ⟨⟨right, s₃, i₃⟩, rest, ok⟩
            rcases bind_ok ok with ⟨i₄, allocated, ok⟩
            cases ok
            rcases pipe _ _ _ _ _ rest with ⟨us, derived', reads'⟩
            refine ⟨_, .pipe derived kind derived', ?_⟩
            have whole := ((reads.trans (.token (by simp [kind]) _)).trans reads').trans
              (.malloc _ allocated)
            simpa [Cmd.size, Nat.add_assoc] using whole
        · cases ok
          refine ⟨_, .single derived, ?_⟩
          simpa using reads.trans (.skip s₁ _)
      · rw [parseexec] at ok
        split at ok
        · rcases block _ _ _ _ _ ok with ⟨ts, derived, reads⟩
          refine ⟨_, derived, ?_⟩
          simpa using (Reads.skip s i).trans reads
        · rcases bind_ok ok with ⟨i₁, allocated, ok⟩
          rcases bind_ok ok with ⟨⟨first, s₂, i₂⟩, firsts, ok⟩
          rcases bind_ok ok with ⟨⟨argv, more, s₃, i₃⟩, rest, ok⟩
          cases ok
          rcases parseredirs_sound firsts with ⟨ts, derived, reads⟩
          rcases parseargs_sound rest (by decide) with ⟨us, args, few, reads'⟩
          refine ⟨_, .simple derived args (by simpa using few), ?_⟩
          have whole := (((Reads.skip s i).trans (.malloc _ allocated)).trans reads).trans reads'
          simpa [size_redircmds, Cmd.size, Nat.mul_add, Nat.add_assoc] using whole
      · rw [parseblock] at ok
        split at ok
        · cases ok
        · next opened =>
            have lpar := peek_lpar.mp ((Bool.not_eq_false _).mp opened)
            rw [first_tokens] at lpar
            rcases bind_ok ok with ⟨⟨inner, s₁, i₁⟩, inners, ok⟩
            dsimp only at ok
            split at ok
            · cases ok
            · next closed =>
                have rpar := peek_rpar.mp ((Bool.not_eq_false _).mp closed)
                rw [first_tokens] at rpar
                rcases bind_ok ok with ⟨⟨redirs, s₂, i₂⟩, last, ok⟩
                cases ok
                rcases line _ _ _ _ _ inners with ⟨ts, derived, reads⟩
                rcases parseredirs_sound last with ⟨us, derived', reads'⟩
                refine ⟨_, .block lpar derived rpar derived', ?_⟩
                have whole := (((Reads.token (by simp [lpar]) i).trans reads).trans
                  (.token (by simp [rpar]) _)).trans reads'
                simpa [size_redircmds] using whole

end PiKernel.Sh
