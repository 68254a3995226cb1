import PiKernel.Sh.Grammar

/-!
# What the grammar derives is parsed

The fuel of every call suffices, and one token tells where each function ends: what may
follow a part of a command never begins like the rest of it.
-/

namespace PiKernel.Sh

section Calls

variable
    {α β : Type}

@[simp]
theorem ok_bind (a : α) (f : α → Except Failure β) : (Except.ok a >>= f) = f a := rfl

@[simp]
theorem pure_ok (a : α) : (pure a : Except Failure α) = .ok a := rfl

theorem malloc1_ok {sz i : Nat} (room : i + sz ≤ MAXN) : malloc1 sz i = .ok (i + sz) :=
  if_neg (Nat.not_lt_of_le room)

end Calls

/-! ## What follows -/

/-- What may follow a part of a command. -/
def Symbol.follow : Symbol → List Kind
  | .line => [.eof, .rpar]
  | .pipe => [.eof, .rpar, .amp, .semi]
  | .exec => [.eof, .rpar, .amp, .semi, .bar]

/-- No redirection and no block follows a command. -/
theorem exec_follow {kind : Kind} (follow : kind ∈ Symbol.exec.follow) :
    kind ∉ [Kind.lt, .gt, .append] ∧ kind ≠ .lpar := by
  simp only [Symbol.follow, List.mem_cons, List.not_mem_nil, or_false] at follow
  rcases follow with rfl | rfl | rfl | rfl | rfl <;> simp

theorem redirection_kind {file : Word} {kind : Kind} {redir : Redir}
    (of : redirection file kind = some redir) : kind ∈ [Kind.lt, .gt, .append] := by
  cases kind with
  | lt | gt | append => simp
  | _ => cases of

theorem Redirs.first {ts : List Token} {redirs : List Redir} (derived : Redirs ts redirs)
    (us : List Token) :
    PiKernel.Sh.first (ts ++ us) = PiKernel.Sh.first us ∨
      PiKernel.Sh.first (ts ++ us) ∈ [Kind.lt, .gt, .append] := by
  cases derived with
  | nil => exact Or.inl rfl
  | cons word of rest => exact Or.inr (redirection_kind of)

theorem Args.first {ts : List Token} {argv : List Word} {redirs : List Redir}
    (derived : Args ts argv redirs) (us : List Token) :
    PiKernel.Sh.first (ts ++ us) = PiKernel.Sh.first us ∨
      PiKernel.Sh.first (ts ++ us) = .word := by
  cases derived with
  | nil => exact Or.inl rfl
  | cons word _ _ => exact Or.inr word

/-! ## Loops -/

theorem parseredirs_complete {ts us : List Token} {redirs : List Redir}
    (derived : Redirs ts redirs) {fuel i : Nat} {s : Ptr} (whole : tokens s = ts ++ us)
    (follow : first us ∉ [Kind.lt, .gt, .append]) (enough : ts.length < fuel)
    (room : i + 40 * redirs.length ≤ MAXN) :
    ∃ s', parseredirs fuel s i = .ok (redirs, s', i + 40 * redirs.length) ∧ tokens s' = us := by
  induction derived generalizing fuel i s with
  | nil =>
      cases fuel with
      | zero => cases enough
      | succ fuel =>
          have stop : ¬ (peek s ['<', '>']).2 = true := by
            rw [peek_redirs, whole]
            exact follow
          refine ⟨skip s, ?_, (tokens_skip s).trans whole⟩
          rw [parseredirs, if_neg stop]
          rfl
  | @cons op file redir ts redirs word of rest ih =>
      cases fuel with
      | zero => cases enough
      | succ fuel =>
          simp only [List.length_cons] at enough room
          have more : (peek s ['<', '>']).2 = true := by
            rw [peek_redirs, whole]
            exact redirection_kind of
          rcases gettoken_of_tokens whole with ⟨here, whole₁, _⟩
          rcases gettoken_of_tokens whole₁ with ⟨here₁, whole₂, _⟩
          rcases @ih fuel (i + 40) (gettoken (gettoken s).2).2 whole₂ (by omega) (by omega) with
            ⟨s', parsed, rest'⟩
          refine ⟨s', ?_, rest'⟩
          simp only [parseredirs, if_pos more, here, here₁, word, ne_eq, not_true_eq_false,
            if_false, of, malloc1_ok (show i + 40 ≤ MAXN by omega), ok_bind, parsed, pure_ok,
            List.length_cons]
          congr 3
          omega

theorem parseargs_complete {ts us : List Token} {argv : List Word} {redirs : List Redir}
    (derived : Args ts argv redirs) {fuel i argc : Nat} {s : Ptr} (whole : tokens s = ts ++ us)
    (follow : first us ∈ Symbol.exec.follow) (enough : ts.length < fuel)
    (few : argc + argv.length < MAXARGS) (room : i + 40 * redirs.length ≤ MAXN) :
    ∃ s', parseargs fuel s i argc = .ok (argv, redirs, s', i + 40 * redirs.length) ∧
      tokens s' = us := by
  induction derived generalizing fuel i argc s with
  | nil =>
      cases fuel with
      | zero => cases enough
      | succ fuel =>
          have start : (gettoken s).1.kind = first us := by rw [← first_tokens, whole]; rfl
          by_cases eof : first us = .eof
          · have stop : ¬ (peek s ['|', ')', '&', ';']).2 = true := by
              rw [peek_args, first_tokens, start, eof]
              decide
            have read := Reads.eof (start.trans eof) i
            refine ⟨(gettoken s).2, ?_, ?_⟩
            · rw [parseargs, if_neg stop]
              simp [start, eof]
            · rw [← List.nil_append (tokens _), ← read.whole, whole, List.nil_append]
          · have stop : (peek s ['|', ')', '&', ';']).2 = true := by
              rw [peek_args, first_tokens, start]
              simp only [Symbol.follow, List.mem_cons, List.not_mem_nil, or_false, eof,
                false_or] at follow ⊢
              rcases follow with kind | kind | kind | kind <;> simp [kind]
            refine ⟨skip s, ?_, (tokens_skip s).trans whole⟩
            rw [parseargs, if_pos stop]
            rfl
  | @cons t ts us' argv redirs more word firsts args ih =>
      cases fuel with
      | zero => cases enough
      | succ fuel =>
          simp only [List.length_append, List.length_cons] at enough few room
          rw [List.cons_append, List.cons_append, List.append_assoc] at whole
          rcases gettoken_of_tokens whole with ⟨here, whole₁, _⟩
          have stop : ¬ (peek s ['|', ')', '&', ';']).2 = true := by
            rw [peek_args, first_tokens, here, word]
            decide
          have follow₁ : first (us' ++ us) ∉ [Kind.lt, .gt, .append] := by
            rcases args.first us with same | same
            · rw [same]
              exact (exec_follow follow).1
            · simp [same]
          have short : ts.length < (gettoken s).2.length + 1 := by
            have bound := tokens_length (gettoken s).2
            rw [whole₁, List.length_append] at bound
            omega
          rcases parseredirs_complete firsts whole₁ follow₁ short
            (show i + 40 * redirs.length ≤ MAXN by omega) with ⟨s₁, parsed₁, whole₂⟩
          rcases @ih fuel (i + 40 * redirs.length) (argc + 1) s₁ whole₂ (by omega)
            (by omega) (by omega) with ⟨s', parsed, rest⟩
          refine ⟨s', ?_, rest⟩
          have room' : ¬ MAXARGS ≤ argc + 1 := by omega
          simp only [parseargs, if_neg stop, here, word, reduceCtorEq, if_false, ne_eq,
            not_true_eq_false, if_neg room', parsed₁, ok_bind, parsed, pure_ok,
            List.length_append]
          congr 4
          omega

theorem parsebacks_complete {ts us : List Token} (amps : Amps ts) (cmd : Cmd) {fuel i : Nat}
    {s : Ptr} (whole : tokens s = ts ++ us) (follow : first us ≠ .amp)
    (enough : ts.length < fuel) (room : i + 16 * ts.length ≤ MAXN) :
    ∃ s', parsebacks fuel cmd s i = .ok (backcmds ts.length cmd, s', i + 16 * ts.length) ∧
      tokens s' = us := by
  induction ts generalizing fuel i cmd s with
  | nil =>
      cases fuel with
      | zero => cases enough
      | succ fuel =>
          have stop : ¬ (peek s ['&']).2 = true := by
            rw [peek_amp, whole]
            exact follow
          refine ⟨skip s, ?_, (tokens_skip s).trans whole⟩
          rw [parsebacks, if_neg stop]
          rfl
  | cons t ts ih =>
      cases fuel with
      | zero => cases enough
      | succ fuel =>
          simp only [List.length_cons] at enough room
          have more : (peek s ['&']).2 = true := by
            rw [peek_amp, whole]
            exact amps t List.mem_cons_self
          rcases gettoken_of_tokens whole with ⟨_, whole₁, _⟩
          rcases @ih (fun u mem => amps u (List.mem_cons_of_mem _ mem)) (.back cmd) fuel (i + 16)
            (gettoken s).2 whole₁ (by omega) (by omega) with ⟨s', parsed, rest⟩
          refine ⟨s', ?_, rest⟩
          simp only [parsebacks, if_pos more, malloc1_ok (show i + 16 ≤ MAXN by omega), ok_bind,
            parsed, List.length_cons, backcmds]
          congr 3
          omega

/-! ## Functions -/

/-- How much fuel a function needs. -/
@[simp] def Symbol.fuel (n : Nat) : Symbol → Nat
  | .line => 4 * n + 4
  | .pipe => 4 * n + 3
  | .exec => 4 * n + 2

/-- The function of a symbol. -/
@[simp] def Symbol.parse : Symbol → Nat → Ptr → Nat → Except Failure (Cmd × Ptr × Nat)
  | .line => parseline
  | .pipe => parsepipe
  | .exec => parseexec

/-- The function of the symbol reads the tokens and returns the command. -/
def Symbol.Parses (symbol : Symbol) (ts : List Token) (cmd : Cmd) : Prop :=
  ∀ {us : List Token} {fuel i : Nat} {s : Ptr}, tokens s = ts ++ us →
    first us ∈ symbol.follow → symbol.fuel ts.length ≤ fuel → i + cmd.size ≤ MAXN →
      ∃ s', symbol.parse fuel s i = .ok (cmd, s', i + cmd.size) ∧ tokens s' = us

section Rules

variable
    {ts us' amps : List Token}
    {t l r : Token}
    {cmd left right : Cmd}
    {argv : List Word}
    {redirs more : List Redir}

/-- Redirections, words, redirections after each of them -/
theorem parseexec_simple (firsts : Redirs ts redirs) (args : Args us' argv more)
    (few : argv.length < MAXARGS) :
    Symbol.exec.Parses (ts ++ us') (redircmds (.exec argv) (redirs ++ more)) := by
  intro us fuel i s whole follow enough room
  simp only [Symbol.fuel, List.length_append] at enough
  rcases Nat.exists_eq_add_of_lt (show 0 < fuel by omega) with ⟨fuel, rfl⟩
  rw [size_redircmds, List.length_append, Cmd.size] at room ⊢
  rw [List.append_assoc] at whole
  have follow₁ : first (us' ++ us) ∉ [Kind.lt, .gt, .append] ∧
      first (us' ++ us) ≠ .lpar := by
    rcases args.first us with same | same
    · rw [same]
      exact exec_follow follow
    · simp [same]
  have stop : ¬ (peek s ['(']).2 = true := by
    rw [peek_lpar, whole]
    rcases firsts.first (us' ++ us) with same | kind
    · rw [same]
      exact follow₁.2
    · intro never
      rw [never] at kind
      simp at kind
  have bound := tokens_length s
  simp only [whole, List.length_append] at bound
  rcases parseredirs_complete firsts ((tokens_skip s).trans whole) follow₁.1
    (show ts.length < s.length + 1 by omega)
    (show i + 168 + 40 * redirs.length ≤ MAXN by omega) with ⟨s₁, parsed₁, whole₁⟩
  have bound₁ := tokens_length s₁
  simp only [whole₁, List.length_append] at bound₁
  rcases parseargs_complete args whole₁ follow (show us'.length < s₁.length + 1 by omega)
    (show 0 + argv.length < MAXARGS by omega)
    (show i + 168 + 40 * redirs.length + 40 * more.length ≤ MAXN by omega) with
    ⟨s', parsed, rest⟩
  refine ⟨s', ?_, rest⟩
  simp only [Symbol.parse, Nat.zero_add, parseexec, if_neg stop,
    malloc1_ok (show i + 168 ≤ MAXN by omega), ok_bind, parsed₁, parsed, pure_ok]
  congr 3
  omega

/-- A line in brackets -/
theorem parseexec_block (lpar : l.kind = .lpar) (ih : Symbol.line.Parses ts cmd)
    (rpar : r.kind = .rpar) (last : Redirs us' redirs) :
    Symbol.exec.Parses (l :: ts ++ r :: us') (redircmds cmd redirs) := by
  intro us fuel i s whole follow enough room
  simp only [Symbol.fuel, List.length_append, List.length_cons] at enough
  rcases Nat.exists_eq_add_of_lt (show 1 < fuel by omega) with ⟨fuel, rfl⟩
  rw [size_redircmds] at room ⊢
  rw [List.cons_append, List.cons_append, List.append_assoc, List.cons_append] at whole
  have opened : (peek s ['(']).2 = true := by
    rw [peek_lpar, whole]
    exact lpar
  have opened' : ¬ (peek (skip s) ['(']).2 = false := by
    rw [Bool.not_eq_false, peek_lpar, tokens_skip, whole]
    exact lpar
  rcases gettoken_of_tokens whole with ⟨_, whole₁, _⟩
  rcases @ih _ fuel i _ whole₁ (by simp [first, rpar, Symbol.follow])
    (by simp only [Symbol.fuel]; omega) (by omega) with ⟨s₁, parsed₁, whole₂⟩
  have closed : ¬ (peek s₁ [')']).2 = false := by
    rw [Bool.not_eq_false, peek_rpar, whole₂]
    exact rpar
  rcases gettoken_of_tokens whole₂ with ⟨_, whole₃, _⟩
  have bound := tokens_length s₁
  simp only [whole₂, List.length_append, List.length_cons] at bound
  rcases parseredirs_complete last whole₃ (exec_follow follow).1
    (show us'.length < s₁.length + 1 by omega)
    (show i + cmd.size + 40 * redirs.length ≤ MAXN by omega) with ⟨s', parsed, rest⟩
  refine ⟨s', ?_, rest⟩
  simp only [Symbol.parse] at parsed₁
  simp only [Symbol.parse, show 1 + fuel + 1 = (fuel + 1) + 1 by omega, parseexec,
    if_pos opened, parseblock, if_neg opened', gettoken_skip, parsed₁, ok_bind,
    if_neg closed, parsed, pure_ok, Nat.add_assoc]

theorem parsepipe_single (ih : Symbol.exec.Parses ts cmd) :
    Symbol.pipe.Parses ts cmd := by
  intro us fuel i s whole follow enough room
  simp only [Symbol.fuel] at enough
  rcases Nat.exists_eq_add_of_lt (show 0 < fuel by omega) with ⟨fuel, rfl⟩
  simp only [Symbol.follow, List.mem_cons, List.not_mem_nil, or_false] at follow
  rcases @ih _ fuel i _ whole
    (by rcases follow with kind | kind | kind | kind <;> simp [kind, Symbol.follow])
    (by simp only [Symbol.fuel]; omega) room with ⟨s₁, parsed₁, rest⟩
  have stop : ¬ (peek s₁ ['|']).2 = true := by
    rw [peek_bar, rest]
    rcases follow with kind | kind | kind | kind <;> simp [kind]
  refine ⟨skip s₁, ?_, (tokens_skip s₁).trans rest⟩
  simp only [Symbol.parse] at parsed₁
  simp only [Symbol.parse, Nat.zero_add, parsepipe, parsed₁, ok_bind, if_neg stop, pure_ok]

theorem parsepipe_pipe (ih : Symbol.exec.Parses ts left) (bar : t.kind = .bar)
    (ih' : Symbol.pipe.Parses us' right) :
    Symbol.pipe.Parses (ts ++ t :: us') (.pipe left right) := by
  intro us fuel i s whole follow enough room
  simp only [Symbol.fuel, List.length_append, List.length_cons] at enough
  rcases Nat.exists_eq_add_of_lt (show 0 < fuel by omega) with ⟨fuel, rfl⟩
  rw [Cmd.size] at room ⊢
  rw [List.append_assoc, List.cons_append] at whole
  rcases @ih _ fuel i _ whole (by simp [first, bar, Symbol.follow])
    (by simp only [Symbol.fuel]; omega) (by omega) with ⟨s₁, parsed₁, whole₁⟩
  have more : (peek s₁ ['|']).2 = true := by
    rw [peek_bar, whole₁]
    exact bar
  rcases gettoken_of_tokens whole₁ with ⟨_, whole₂, _⟩
  rcases @ih' _ fuel (i + left.size) _ whole₂ follow
    (by simp only [Symbol.fuel]; omega) (by omega) with ⟨s', parsed, rest'⟩
  refine ⟨s', ?_, rest'⟩
  simp only [Symbol.parse] at parsed₁ parsed
  simp only [Symbol.parse, Nat.zero_add, parsepipe, parsed₁, ok_bind, if_pos more, parsed,
    malloc1_ok (show i + left.size + right.size + 24 ≤ MAXN by omega), pure_ok]
  congr 3
  omega

theorem parseline_line (ih : Symbol.pipe.Parses ts cmd) (back : Amps amps) :
    Symbol.line.Parses (ts ++ amps) (backcmds amps.length cmd) := by
  intro us fuel i s whole follow enough room
  simp only [Symbol.fuel, List.length_append] at enough
  rcases Nat.exists_eq_add_of_lt (show 0 < fuel by omega) with ⟨fuel, rfl⟩
  rw [size_backcmds] at room ⊢
  rw [List.append_assoc] at whole
  simp only [Symbol.follow, List.mem_cons, List.not_mem_nil, or_false] at follow
  have follow₁ : first (amps ++ us) ∈ Symbol.pipe.follow := by
    cases amps with
    | nil => rcases follow with kind | kind <;> simp [kind, Symbol.follow]
    | cons t amps => simp [first, back t List.mem_cons_self, Symbol.follow]
  rcases @ih _ fuel i _ whole follow₁ (by simp only [Symbol.fuel]; omega)
    (by omega) with ⟨s₁, parsed₁, whole₁⟩
  have bound := tokens_length s₁
  simp only [whole₁, List.length_append] at bound
  rcases parsebacks_complete back cmd whole₁
    (by rcases follow with kind | kind <;> simp [kind])
    (show amps.length < s₁.length + 1 by omega)
    (show i + cmd.size + 16 * amps.length ≤ MAXN by omega) with ⟨s₂, parsed₂, rest⟩
  have stop : ¬ (peek s₂ [';']).2 = true := by
    rw [peek_semi, rest]
    rcases follow with kind | kind <;> simp [kind]
  refine ⟨skip s₂, ?_, (tokens_skip s₂).trans rest⟩
  simp only [Symbol.parse] at parsed₁
  simp only [Symbol.parse, Nat.zero_add, parseline, parsed₁, ok_bind, parsed₂, if_neg stop,
    pure_ok, Nat.add_assoc]

theorem parseline_list (ih : Symbol.pipe.Parses ts cmd) (back : Amps amps)
    (semi : t.kind = .semi) (ih' : Symbol.line.Parses us' right) :
    Symbol.line.Parses (ts ++ amps ++ t :: us') (.list (backcmds amps.length cmd) right) := by
  intro us fuel i s whole follow enough room
  simp only [Symbol.fuel, List.length_append, List.length_cons] at enough
  rcases Nat.exists_eq_add_of_lt (show 0 < fuel by omega) with ⟨fuel, rfl⟩
  rw [Cmd.size, size_backcmds] at room ⊢
  rw [List.append_assoc, List.append_assoc, List.cons_append] at whole
  have follow₁ : first (amps ++ t :: (us' ++ us)) ∈ Symbol.pipe.follow := by
    cases amps with
    | nil => simp [first, semi, Symbol.follow]
    | cons t amps => simp [first, back t List.mem_cons_self, Symbol.follow]
  rcases @ih _ fuel i _ whole follow₁ (by simp only [Symbol.fuel]; omega)
    (by omega) with ⟨s₁, parsed₁, whole₁⟩
  have bound := tokens_length s₁
  simp only [whole₁, List.length_append] at bound
  rcases parsebacks_complete back cmd whole₁ (by simp [first, semi])
    (show amps.length < s₁.length + 1 by omega)
    (show i + cmd.size + 16 * amps.length ≤ MAXN by omega) with ⟨s₂, parsed₂, whole₂⟩
  have more : (peek s₂ [';']).2 = true := by
    rw [peek_semi, whole₂]
    exact semi
  rcases gettoken_of_tokens whole₂ with ⟨_, whole₃, _⟩
  rcases @ih' _ fuel (i + cmd.size + 16 * amps.length) _ whole₃ follow
    (by simp only [Symbol.fuel]; omega) (by omega) with ⟨s', parsed, rest'⟩
  refine ⟨s', ?_, rest'⟩
  simp only [Symbol.parse] at parsed₁ parsed
  simp only [Symbol.parse, Nat.zero_add, parseline, parsed₁, ok_bind, parsed₂, if_pos more,
    parsed, malloc1_ok (show i + cmd.size + 16 * amps.length + right.size + 24 ≤ MAXN by
      omega), pure_ok]
  congr 3
  omega

end Rules

/-- What is derived is parsed, if it is followed by what may follow it. -/
theorem parse_complete {symbol : Symbol} {ts : List Token} {cmd : Cmd}
    (derived : Derives symbol ts cmd) : symbol.Parses ts cmd := by
  induction derived with
  | simple firsts args few => exact parseexec_simple firsts args few
  | block lpar _ rpar last ih => exact parseexec_block lpar ih rpar last
  | single _ ih => exact parsepipe_single ih
  | pipe _ bar _ ih ih' => exact parsepipe_pipe ih bar ih'
  | line _ back ih => exact parseline_line ih back
  | list _ back semi _ ih ih' => exact parseline_list ih back semi ih'

/-! ## Lines that are refused -/

/-- How the parser ends a process; the panic of `parseblock` is never reached. -/
def refusals : List Failure :=
  [.memory, .panic "missing file for redirection", .panic "syntax", .panic "too many args",
    .panic "syntax - missing )"]

theorem bind_error {α β : Type} {x : Except Failure α} {f : α → Except Failure β} {e : Failure}
    (failed : (x >>= f) = .error e) :
    x = .error e ∨ ∃ a, x = .ok a ∧ f a = .error e := by
  cases x with
  | error e' =>
      cases failed
      exact Or.inl rfl
  | ok a => exact Or.inr ⟨a, rfl, failed⟩

section Refused

variable
    {e : Failure}
    {fuel i argc : Nat}
    {s : Ptr}

theorem malloc1_refused {sz : Nat} (failed : malloc1 sz i = .error e) : e ∈ refusals := by
  unfold malloc1 at failed
  split at failed <;> cases failed
  decide

theorem parseredirs_refused (enough : s.length < fuel)
    (failed : parseredirs fuel s i = .error e) : e ∈ refusals := by
  induction fuel generalizing s i with
  | zero => cases enough
  | succ fuel ih =>
      simp only [parseredirs] at failed
      split at failed
      · next more =>
          have kind := peek_redirs.mp more
          rw [first_tokens] at kind
          have found : (gettoken s).1.kind ≠ .eof := by
            intro eof
            rw [eof] at kind
            simp at kind
          have shorter := gettoken_length found
          have shorter' := (gettoken_suffix (gettoken s).2).length_le
          split at failed
          · cases failed
            decide
          · split at failed
            · exact ih (by omega) failed
            · rcases bind_error failed with out | ⟨i₁, _, failed⟩
              · exact malloc1_refused out
              · rcases bind_error failed with out | ⟨⟨redirs, s₂, i₂⟩, _, failed⟩
                · exact ih (by omega) out
                · cases failed
      · cases failed

theorem parseargs_refused (enough : s.length < fuel)
    (failed : parseargs fuel s i argc = .error e) : e ∈ refusals := by
  induction fuel generalizing s i argc with
  | zero => cases enough
  | succ fuel ih =>
      simp only [parseargs] at failed
      split at failed
      · cases failed
      · split at failed
        · cases failed
        · next found =>
            have shorter := gettoken_length found
            split at failed
            · cases failed
              decide
            · split at failed
              · cases failed
                decide
              · rcases bind_error failed with out | ⟨⟨redirs, s₁, i₁⟩, firsts, failed⟩
                · exact parseredirs_refused (Nat.lt_succ_self _) out
                · rcases parseredirs_sound firsts with ⟨_, _, reads⟩
                  have shorter' : s₁.length ≤ (gettoken s).2.length := reads.shorter
                  have enough' : s₁.length < fuel := by omega
                  rcases bind_error failed with out | ⟨⟨argv, more, s₂, i₂⟩, _, failed⟩
                  · exact ih enough' out
                  · cases failed

theorem parsebacks_refused {cmd : Cmd} (enough : s.length < fuel)
    (failed : parsebacks fuel cmd s i = .error e) : e ∈ refusals := by
  induction fuel generalizing s i cmd with
  | zero => cases enough
  | succ fuel ih =>
      simp only [parsebacks] at failed
      split at failed
      · next more =>
          have kind := peek_amp.mp more
          rw [first_tokens] at kind
          have shorter := gettoken_length (s := s) (by simp [kind])
          rcases bind_error failed with out | ⟨i₁, _, failed⟩
          · exact malloc1_refused out
          · exact ih (by omega) failed
      · cases failed

/-- The fuel that `parseall` gives is enough for every call. -/
theorem parse_refused (fuel : Nat) :
    (∀ s i, 4 * s.length + 4 ≤ fuel → parseline fuel s i = .error e → e ∈ refusals) ∧
    (∀ s i, 4 * s.length + 3 ≤ fuel → parsepipe fuel s i = .error e → e ∈ refusals) ∧
    (∀ s i, 4 * s.length + 2 ≤ fuel → parseexec fuel s i = .error e → e ∈ refusals) ∧
    (∀ s i, 4 * s.length + 1 ≤ fuel → (peek s ['(']).2 = true →
      parseblock fuel s i = .error e → e ∈ refusals) := by
  induction fuel with
  | zero => exact ⟨by omega, by omega, by omega, by omega⟩
  | succ fuel ih =>
      rcases ih with ⟨line, pipe, exec, block⟩
      rcases parse_sound fuel with ⟨line_sound, pipe_sound, exec_sound, _⟩
      refine ⟨?_, ?_, ?_, ?_⟩
      · intro s i enough failed
        rw [parseline] at failed
        rcases bind_error failed with out | ⟨⟨first, s₁, i₁⟩, firsts, failed⟩
        · exact pipe s i (by omega) out
        · rcases pipe_sound _ _ _ _ _ firsts with ⟨_, _, reads⟩
          rcases bind_error failed with out | ⟨⟨cmd, s₂, i₂⟩, backs, failed⟩
          · exact parsebacks_refused (Nat.lt_succ_self _) out
          · rcases parsebacks_sound backs with ⟨_, _, _, reads'⟩
            have shorter := reads'.shorter.trans reads.shorter
            dsimp only at failed
            split at failed
            · next more =>
                have kind := peek_semi.mp more
                rw [first_tokens] at kind
                have shorter' := gettoken_length (s := s₂) (by simp [kind])
                rcases bind_error failed with out | ⟨⟨right, s₃, i₃⟩, _, failed⟩
                · exact line _ _ (by omega) out
                · rcases bind_error failed with out | ⟨i₄, _, failed⟩
                  · exact malloc1_refused out
                  · cases failed
            · cases failed
      · intro s i enough failed
        rw [parsepipe] at failed
        rcases bind_error failed with out | ⟨⟨first, s₁, i₁⟩, firsts, failed⟩
        · exact exec s i (by omega) out
        · rcases exec_sound _ _ _ _ _ firsts with ⟨_, _, reads⟩
          have shorter := reads.shorter
          dsimp only at failed
          split at failed
          · next more =>
              have kind := peek_bar.mp more
              rw [first_tokens] at kind
              have shorter' := gettoken_length (s := s₁) (by simp [kind])
              rcases bind_error failed with out | ⟨⟨right, s₂, i₂⟩, _, failed⟩
              · exact pipe _ _ (by omega) out
              · rcases bind_error failed with out | ⟨i₃, _, failed⟩
                · exact malloc1_refused out
                · cases failed
          · cases failed
      · intro s i enough failed
        rw [parseexec] at failed
        have shorter := (skip_suffix s).length_le
        split at failed
        · next opened =>
            have opened' : (peek (skip s) ['(']).2 = true := by
              rw [peek_lpar, tokens_skip]
              exact peek_lpar.mp opened
            exact block _ _ (by omega) opened' failed
        · rcases bind_error failed with out | ⟨i₁, _, failed⟩
          · exact malloc1_refused out
          · rcases bind_error failed with out | ⟨⟨first, s₂, i₂⟩, firsts, failed⟩
            · exact parseredirs_refused (by omega) out
            · rcases bind_error failed with out | ⟨⟨argv, more, s₃, i₃⟩, _, failed⟩
              · exact parseargs_refused (Nat.lt_succ_self _) out
              · cases failed
      · intro s i enough opened failed
        rw [parseblock, if_neg (Bool.not_eq_false _ ▸ opened)] at failed
        have kind := peek_lpar.mp opened
        rw [first_tokens] at kind
        have shorter := gettoken_length (s := s) (by simp [kind])
        rcases bind_error failed with out | ⟨⟨cmd, s₁, i₁⟩, inners, failed⟩
        · exact line _ _ (by omega) out
        · rcases line_sound _ _ _ _ _ inners with ⟨_, _, reads⟩
          dsimp only at failed
          split at failed
          · cases failed
            decide
          · next closed =>
              have kind := peek_rpar.mp ((Bool.not_eq_false _).mp closed)
              rw [first_tokens] at kind
              have shorter' := gettoken_length (s := s₁) (by simp [kind])
              rcases bind_error failed with out | ⟨⟨redirs, s₂, i₂⟩, _, failed⟩
              · exact parseredirs_refused (by omega) out
              · cases failed

end Refused

/-! ## Command lines -/

theorem parseall_refused {line : Ptr} {e : Failure} (failed : parseall line = .error e) :
    e ∈ refusals := by
  rcases bind_error failed with out | ⟨⟨cmd, s, i⟩, _, failed⟩
  · exact (parse_refused _).1 line 0 (Nat.le_refl _) out
  · dsimp only at failed
    split at failed <;> cases failed
    decide

/-- The parser accepts what derives from the grammar, as far as memory permits. -/
theorem parseall_iff (line : Ptr) (cmd : Cmd) :
    parseall line = .ok cmd ↔ Derives .line (tokens line) cmd ∧ cmd.size ≤ MAXN := by
  constructor
  · intro ok
    rcases bind_ok ok with ⟨⟨cmd', s, i⟩, parsed, ok⟩
    rcases (parse_sound _).1 _ _ _ _ _ parsed with ⟨ts, derived, reads⟩
    dsimp only at ok
    split at ok <;> cases ok
    next ended =>
    have empty : tokens s = [] :=
      tokens_eof (gettoken_eof.mpr (Decidable.not_not.mp ended))
    have whole := reads.whole
    rw [empty, List.append_nil] at whole
    have fits := reads.room (Nat.zero_le _)
    rw [reads.used, Nat.zero_add] at fits
    exact ⟨whole ▸ derived, fits⟩
  · rintro ⟨derived, fits⟩
    have bound := tokens_length line
    rcases @parse_complete _ _ _ derived [] (4 * line.length + 4) 0 line
      (List.append_nil _).symm (by simp [first, Symbol.follow])
      (by simp only [Symbol.fuel]; omega) (by omega) with ⟨s', parsed, rest⟩
    have ended : skip s' = [] := gettoken_eof.mp (eof_of_tokens rest)
    simp only [Symbol.parse] at parsed
    unfold parseall
    simp [parsed, ended]

end PiKernel.Sh
