import PiKernel.Ptable.Order

/-!
# Every statement keeps the invariant

One lemma for the statements that switch, and one for each way a statement changes the
table; `exec_ordered` puts them together.
-/

namespace PiKernel.Ptable

open PiKernel.Conc
open PiKernel.Trap (ProcState)

variable
    {slots cpus : Nat}
    {m m' : Machine slots cpus}
    {phase : Fin cpus → Phase slots}
    {c : Fin cpus}
    {k : Code slots}

namespace Machine.Ordered

/-- The statement that a processor executes may stand where it does. -/
theorem next (ordered : m.Ordered phase) {stmt : Stmt slots}
    (code : m.code c = stmt :: k) (calm : ∀ message, stmt ≠ .panic message) :
    phase c ≠ .dead ∧
      ∃ ph, permitted (phase c) stmt = some ph ∧ Disciplined ph k := by
  constructor
  · intro dead
    have blamed := ordered.dead c dead
    rw [code] at blamed
    cases blamed <;> exact calm _ rfl
  · have follows := ordered.code c
    rw [code] at follows
    exact follows.head

/-! ## Switches -/

/-- What `sched` needs of the processor that calls it. -/
theorem sched_ready (ordered : m.Ordered phase) (code : m.code c = .sched :: k) :
    (phase c = .leaving ∧ Disciplined .locked k ∨ phase c = .dying) ∧
      ∃ me code', m.current c = some me ∧
        m.held .ptable = some c ∧
        (m.proc me).state ≠ .RUNNING ∧
        m.scheduler c = some code' ∧ Disciplined .back code' := by
  rcases ordered.next code (by simp) with ⟨alive, ph, may, rest⟩
  have leaves : phase c = .leaving ∧ ph = .locked ∨ phase c = .dying := by
    cases at_ : phase c <;> simp_all [permitted]
  have role : (phase c).role = .leaving ∨ (phase c).role = .dying := by
    rcases leaves with ⟨before, _⟩ | before
    · exact Or.inl (by rw [before]; rfl)
    · exact Or.inr (by rw [before]; rfl)
  constructor
  · rcases leaves with ⟨before, rfl⟩ | before
    · exact Or.inl ⟨before, rest⟩
    · exact Or.inr before
  · rcases ordered.resume c (Or.inr role) with ⟨code', scheduler, follows⟩
    cases current : m.current c with
    | none =>
        have scheduler := (ordered.scheduler c).mp current
        rcases role with role | role <;> rw [role] at scheduler <;> cases scheduler
    | some me =>
        have allowed := ordered.state c me current
        refine ⟨me, code', rfl, ?_, ?_, scheduler, follows⟩
        · apply (ordered.lock c).mpr
          rcases leaves with ⟨before, _⟩ | before <;> rw [before] <;> rfl
        · intro running
          rw [running] at allowed
          rcases role with role | role <;> rw [role] at allowed
          · rcases allowed with never | never <;> cases never
          · cases allowed

/-- `sched` switches to `scheduler`. -/
theorem runSched (ordered : m.Ordered phase) (code : m.code c = .sched :: k)
    (step : Stmt.runSched c k m = some m') :
    m'.Ordered (Function.update phase c .back) := by
  rcases ordered.sched_ready code with
    ⟨leaves, me, code', current, held, stopped, scheduler, follows⟩
  unfold Stmt.runSched at step
  rw [current] at step
  simp only [held, stopped, scheduler, ne_eq, not_true_eq_false, if_false,
    Option.map_some, Option.some.injEq] at step
  subst step
  have holds : (phase c).holds := (ordered.lock c).mp held
  have mine {c' : Fin cpus} {p : Fin slots} (other : c' ≠ c)
      (there : m.current c' = some p) : p ≠ me := by
    rintro rfl
    exact other (ordered.one c' c p there current)
  apply ordered.update (k := code') rfl follows (by simp)
  · apply ordered.lock_kept rfl
    rw [holds]
    rfl
  · exact fun _ _ _ there => there
  · exact fun _ never => by cases never
  · exact fun _ _ => rfl
  · intro c' other
    exact Function.update_of_ne other _ _
  · exact fun _ _ _ _ => rfl
  · exact fun c' q _ => ordered.embryo c' q
  · change m.current c = none ↔ _
    rw [current]
    exact iff_of_false (by simp) (fun never => by cases never)
  · intro p here
    change m.current c = some p at here
    rw [current] at here
    cases here
    have allowed := ordered.state c me current
    rcases leaves with ⟨before, _⟩ | before
    · rw [before] at allowed
      rcases allowed with state | state
      · exact Or.inl state
      · exact Or.inr (Or.inl state)
    · rw [before] at allowed
      exact Or.inr (Or.inr allowed)
  · intro process
    rcases process with process | process | process <;> cases process
  · exact fun _ chosen => by cases chosen
  · exact fun _ embryo => by cases embryo
  · intro c' p other here there
    exact other (ordered.one c' c p there here)
  · exact ordered.running
  · intro p parked
    have before : p ≠ me → m.Parked phase p := by
      intro other
      rcases parked with ⟨state, back⟩ | ⟨c', chosen⟩
      · refine Or.inl ⟨state, fun c' there => ?_⟩
        have away : c' ≠ c := by
          rintro rfl
          rw [current] at there
          cases there
          exact other rfl
        have role := back c' there
        rwa [Function.update_of_ne away] at role
      · by_cases same : c' = c
        · subst same
          rw [Function.update_self] at chosen
          cases chosen
        · rw [Function.update_of_ne same] at chosen
          exact Or.inr ⟨c', chosen⟩
    by_cases same : p = me
    · subst same
      refine ⟨k, Function.update_self _ _ _, ?_⟩
      rcases leaves with ⟨_, rest⟩ | before
      · exact rest
      · have zombie := ordered.state c p current
        rw [before] at zombie
        rcases parked with ⟨state, _⟩ | ⟨c', chosen⟩
        · change (m.proc p).state = _ ∨ (m.proc p).state = _ ∨ (m.proc p).state = _ at state
          have dead : (m.proc p).state = .ZOMBIE := zombie
          rw [dead] at state
          rcases state with never | never | never <;> cases never
        · by_cases same : c' = c
          · subst same
            rw [Function.update_self] at chosen
            cases chosen
          · rw [Function.update_of_ne same] at chosen
            exact absurd (ordered.chosen c' p chosen) fun there => mine same there rfl
    · rcases ordered.context p (before same) with ⟨code'', context, follows⟩
      exact ⟨code'', (Function.update_of_ne same _ _).trans context, follows⟩

/-- `scheduler` chooses a process. -/
theorem runPick (ordered : m.Ordered phase) (code : m.code c = .pick :: k)
    (step : Stmt.runPick c k m = some m') : ∃ phase', m'.Ordered phase' := by
  rcases ordered.next code (by simp) with ⟨alive, ph, may, rest⟩
  have choosing : phase c = .choosing ∧ ph = .choosing := by
    cases at_ : phase c <;> simp_all [permitted]
  rcases choosing with ⟨before, rfl⟩
  have holds : (phase c).holds := by
    rw [before]
    rfl
  have none_here : m.current c = none := by
    apply (ordered.scheduler c).mpr
    rw [before]
    rfl
  unfold Stmt.runPick at step
  split at step
  · cases step
    refine ⟨phase, ordered.goto rfl rfl rfl rfl rfl (fun _ => Or.inl rfl) ?_ alive⟩
    rwa [before]
  · next p found =>
      have runnable := Table.pick_state found
      have absent (c' : Fin cpus) : m.current c' ≠ some p := by
        intro there
        by_cases same : c' = c
        · subst same
          rw [none_here] at there
          cases there
        · have running := ordered.other_state holds same there
          rw [runnable] at running
          cases running
      cases step
      refine ⟨Function.update phase c (.chosen p), ?_⟩
      have follows : Disciplined (.chosen p) (.swtch p :: .clearProc :: k) := by
        apply (follows_cons (b := Phase.back) ?_).mpr
        · exact (follows_cons (b := Phase.choosing) rfl).mpr rest
        · simp [permitted]
      apply ordered.update (k := .swtch p :: .clearProc :: k) rfl follows (by simp)
      · apply ordered.lock_kept rfl
        rw [before]
        rfl
      · exact fun _ _ _ there => there
      · exact fun _ never => by cases never
      · intro c' other
        exact Function.update_of_ne other _ _
      · exact fun _ _ => rfl
      · intro c' q other there
        have away : q ≠ p := by
          rintro rfl
          exact absent c' there
        exact congrArg Proc.state (Function.update_of_ne away _ _)
      · intro c' q other embryo
        have state := ordered.embryo c' q embryo
        have away : q ≠ p := by
          rintro rfl
          rw [runnable] at state
          cases state
        exact (congrArg Proc.state (Function.update_of_ne away _ _)).trans state
      · apply iff_of_false
        · intro never
          change Function.update m.current c (some p) c = none at never
          rw [Function.update_self] at never
          cases never
        · intro never
          cases never
      · intro q here
        change Function.update m.current c (some p) c = some q at here
        rw [Function.update_self] at here
        cases here
        change (Function.update m.proc p { m.proc p with state := .RUNNING } p).state = _
        rw [Function.update_self]
      · intro process
        rcases process with process | process | process <;> cases process
      · intro q chosen
        cases chosen
        exact Function.update_self _ _ _
      · exact fun _ embryo => by cases embryo
      · intro c' q other here
        change Function.update m.current c (some p) c = some q at here
        rw [Function.update_self] at here
        cases here
        exact absent c'
      · intro q state
        by_cases same : q = p
        · subst same
          exact ⟨c, Function.update_self _ _ _⟩
        · have kept := congrArg Proc.state
            (Function.update_of_ne same { m.proc p with state := .RUNNING } m.proc)
          rcases ordered.running q (kept.symm.trans state) with ⟨c', there⟩
          have away : c' ≠ c := by
            rintro rfl
            rw [none_here] at there
            cases there
          exact ⟨c', (Function.update_of_ne away _ _).trans there⟩
      · intro q parked
        by_cases same : q = p
        · subst same
          apply ordered.context
          exact Or.inl ⟨Or.inl runnable, fun c' there => absurd there (absent c')⟩
        · apply ordered.context
          have kept := congrArg Proc.state
            (Function.update_of_ne same { m.proc p with state := .RUNNING } m.proc)
          rcases parked with ⟨state, back⟩ | ⟨c', chosen⟩
          · refine Or.inl ⟨?_, fun c' there => ?_⟩
            · rwa [← kept]
            · have away : c' ≠ c := by
                rintro rfl
                rw [none_here] at there
                cases there
              have role := back c' ((Function.update_of_ne away _ _).trans there)
              rwa [Function.update_of_ne away] at role
          · by_cases same' : c' = c
            · subst same'
              rw [Function.update_self] at chosen
              cases chosen
              exact absurd rfl same
            · rw [Function.update_of_ne same'] at chosen
              exact Or.inr ⟨c', chosen⟩

/-- `scheduler` switches to the process it has chosen. -/
theorem runSwtch (ordered : m.Ordered phase) {p : Fin slots} (code : m.code c = .swtch p :: k)
    (step : Stmt.runSwtch c k m p = some m') :
    phase c = .chosen p ∧ m'.Ordered (Function.update phase c .locked) := by
  rcases ordered.next code (by simp) with ⟨alive, ph, may, rest⟩
  have chosen : phase c = .chosen p ∧ ph = .back := by
    cases at_ : phase c <;> simp_all [permitted]
  rcases chosen with ⟨before, rfl⟩
  refine ⟨before, ?_⟩
  have role : (phase c).role = .chosen p := by
    rw [before]
    rfl
  have here := ordered.chosen c p role
  have running : (m.proc p).state = .RUNNING := by
    have allowed := ordered.state c p here
    rwa [role] at allowed
  rcases ordered.context p (Or.inr ⟨c, role⟩) with ⟨code', context, follows⟩
  unfold Stmt.runSwtch at step
  rw [context] at step
  cases step
  apply ordered.update (k := code') rfl follows (by simp)
  · apply ordered.lock_kept rfl
    rw [before]
    rfl
  · exact fun _ _ _ there => there
  · exact fun _ never => by cases never
  · exact fun _ _ => rfl
  · intro c' other
    exact Function.update_of_ne other _ _
  · exact fun _ _ _ _ => rfl
  · exact fun c' q _ => ordered.embryo c' q
  · change m.current c = none ↔ _
    rw [here]
    exact iff_of_false (by simp) (fun never => by cases never)
  · intro q there
    change m.current c = some q at there
    rw [here] at there
    cases there
    exact running
  · intro _
    exact ⟨k, Function.update_self _ _ _, rest⟩
  · exact fun _ never => by cases never
  · exact fun _ embryo => by cases embryo
  · intro c' q other there there'
    exact other (ordered.one c' c q there' there)
  · exact ordered.running
  · intro q parked
    have away : q ≠ p := by
      rintro rfl
      rcases parked with ⟨state, _⟩ | ⟨c', chosen⟩
      · change (m.proc q).state = _ ∨ (m.proc q).state = _ ∨ (m.proc q).state = _ at state
        rw [running] at state
        rcases state with never | never | never <;> cases never
      · by_cases same : c' = c
        · subst same
          rw [Function.update_self] at chosen
          cases chosen
        · rw [Function.update_of_ne same] at chosen
          exact same (ordered.one c' c q (ordered.chosen c' q chosen) here)
    have before' : m.Parked phase q := by
      rcases parked with ⟨state, back⟩ | ⟨c', chosen⟩
      · refine Or.inl ⟨state, fun c' there => ?_⟩
        have role' := back c' there
        have other : c' ≠ c := by
          rintro rfl
          rw [Function.update_self] at role'
          cases role'
        rwa [Function.update_of_ne other] at role'
      · by_cases same : c' = c
        · subst same
          rw [Function.update_self] at chosen
          cases chosen
        · rw [Function.update_of_ne same] at chosen
          exact Or.inr ⟨c', chosen⟩
    rcases ordered.context q before' with ⟨code'', context', follows'⟩
    exact ⟨code'', (Function.update_of_ne away _ _).trans context', follows'⟩

/-- `c->proc = NULL;` -/
theorem clearProc (ordered : m.Ordered phase) (code : m.code c = .clearProc :: k) :
    ({ m with current := Function.update m.current c none }.goto c k).Ordered
      (Function.update phase c .choosing) := by
  rcases ordered.next code (by simp) with ⟨alive, ph, may, rest⟩
  have back : phase c = .back ∧ ph = .choosing := by
    cases at_ : phase c <;> simp_all [permitted]
  rcases back with ⟨before, rfl⟩
  apply ordered.update (k := k) rfl rest (by simp)
  · apply ordered.lock_kept rfl
    rw [before]
    rfl
  · exact fun _ _ _ there => there
  · exact fun _ never => by cases never
  · intro c' other
    exact Function.update_of_ne other _ _
  · exact fun _ _ => rfl
  · exact fun _ _ _ _ => rfl
  · exact fun c' q _ => ordered.embryo c' q
  · exact iff_of_true (Function.update_self _ _ _) rfl
  · intro q here
    change Function.update m.current c none c = some q at here
    rw [Function.update_self] at here
    cases here
  · intro process
    rcases process with process | process | process <;> cases process
  · exact fun _ never => by cases never
  · exact fun _ embryo => by cases embryo
  · intro c' q other here
    change Function.update m.current c none c = some q at here
    rw [Function.update_self] at here
    cases here
  · intro q state
    rcases ordered.running q state with ⟨c', there⟩
    have away : c' ≠ c := by
      rintro rfl
      have allowed := ordered.state c' q there
      rw [before] at allowed
      change (m.proc q).state = _ ∨ (m.proc q).state = _ ∨ (m.proc q).state = _ at allowed
      change (m.proc q).state = _ at state
      rw [state] at allowed
      rcases allowed with never | never | never <;> cases never
    exact ⟨c', (Function.update_of_ne away _ _).trans there⟩
  · intro q parked
    apply ordered.context
    rcases parked with ⟨state, back⟩ | ⟨c', chosen⟩
    · refine Or.inl ⟨state, fun c' there => ?_⟩
      by_cases same : c' = c
      · rw [same, before]
        rfl
      · have role := back c' ((Function.update_of_ne same _ _).trans there)
        rwa [Function.update_of_ne same] at role
    · by_cases same : c' = c
      · subst same
        rw [Function.update_self] at chosen
        cases chosen
      · rw [Function.update_of_ne same] at chosen
        exact Or.inr ⟨c', chosen⟩

/-! ## Spinlocks -/

/-- A process that does not hold the lock panics. -/
theorem panic (ordered : m.Ordered phase) (before : phase c = .unlocked) (blamed : Blamed k) :
    (m.goto c k).Ordered (Function.update phase c .dead) := by
  refine ordered.advance (k := k) rfl rfl rfl rfl (fun _ => Or.inl rfl)
    ?_ ?_ ?_ ?_ ?_ ?_ ?_
  · apply ordered.lock_kept rfl
    rw [before]
    rfl
  · rw [before]
    rfl
  · exact fun _ embryo => by cases embryo
  · exact disciplined_dead _
  · exact fun _ => blamed
  · exact fun _ _ _ there => there
  · exact fun _ never => by cases never

/-- A lock is taken by a processor that is not in `sleep`. -/
theorem held_taken {lk : Lock} (free : m.held lk = none) (c' : Fin cpus) (lk' : Lock)
    (there : m.held lk' = some c') :
    Function.update m.held lk (some c) lk' = some c' := by
  have other : lk' ≠ lk := by
    rintro rfl
    rw [free] at there
    cases there
  rwa [Function.update_of_ne other]

/-- A lock is given up by the processor that holds it. -/
theorem held_released {lk : Lock} (here : m.held lk = some c) (c' : Fin cpus) (lk' : Lock)
    (away : c' ≠ c) (there : m.held lk' = some c') :
    Function.update m.held lk none lk' = some c' := by
  have other : lk' ≠ lk := by
    rintro rfl
    rw [here] at there
    exact away (Option.some.inj there).symm
  rwa [Function.update_of_ne other]

set_option linter.unnecessarySeqFocus false in
/-- Where `acquire` may stand. -/
theorem permitted_acquire {ph ph' : Phase slots} {lk : Lock}
    (may : permitted ph (.acquire lk) = some ph') (alive : ph ≠ .dead) :
    ph = .unlocked ∧ lk ≠ .ptable ∧ ph' = .unlocked ∨
      lk = .ptable ∧ ph.holds = false ∧ ph'.holds ∧ ph'.role = ph.role ∧
        ph'.embryo = none ∧ ph' ≠ .dead ∧ ph'.keeps = ph.keeps := by
  cases ph with
  | unlocked | idle =>
      simp only [permitted] at may
      split at may <;> cases may <;>
        simp_all [Phase.holds, Phase.role, Phase.embryo, Phase.keeps]
  | entering lk' =>
      simp only [permitted, Stmt.acquire.injEq] at may
      split at may <;> cases may <;>
        simp_all [Phase.holds, Phase.role, Phase.embryo, Phase.keeps]
  | dead => exact absurd rfl alive
  | _ => simp [permitted] at may

theorem runAcquire (ordered : m.Ordered phase) {lk : Lock} (code : m.code c = .acquire lk :: k)
    (step : Stmt.runAcquire c k m lk = some m') : ∃ phase', m'.Ordered phase' := by
  rcases ordered.next code (by simp) with ⟨alive, ph, may, rest⟩
  unfold Stmt.runAcquire at step
  rcases permitted_acquire may alive with ⟨before, other, rfl⟩ |
    ⟨rfl, free, holds, role, embryo, lives, keeps⟩
  · split at step
    · cases step
      exact ⟨_, ordered.panic before (.acquire other _)⟩
    · split at step
      · next unheld =>
          cases step
          refine ⟨Function.update phase c .unlocked, ?_⟩
          refine ordered.advance (k := k) rfl rfl rfl rfl (fun _ => Or.inl rfl)
            ?_ ?_ ?_ ?_ ?_ ?_ ?_
          · apply ordered.lock_kept
            · exact Function.update_of_ne (Ne.symm other) _ _
            · rw [before]
          · rw [before]
          · exact fun _ never => by cases never
          · exact rest
          · simp
          · exact fun c' lk' _ => held_taken unheld c' lk'
          · exact fun _ never => by cases never
      · cases step
  · have free' : m.held .ptable ≠ some c := by
      intro held
      have holds := (ordered.lock c).mp held
      rw [free] at holds
      cases holds
    rw [if_neg free'] at step
    split at step
    · next unheld =>
        cases step
        refine ⟨Function.update phase c ph, ?_⟩
        refine ordered.advance (k := k) rfl rfl rfl rfl (fun _ => Or.inl rfl)
          ?_ ?_ ?_ ?_ ?_ ?_ ?_
        · exact ordered.lock_taken unheld (Function.update_self Lock.ptable _ m.held) holds
        · exact role
        · intro q mine
          rw [embryo] at mine
          cases mine
        · exact rest
        · exact fun dead => absurd dead lives
        · exact fun c' lk' _ => held_taken unheld c' lk'
        · intro lk' here
          rw [keeps] at here
          exact held_taken unheld c lk' (ordered.keeps c lk' here)
    · cases step

set_option linter.unnecessarySeqFocus false in
/-- Where `release` may stand. -/
theorem permitted_release {ph ph' : Phase slots} {lk : Lock}
    (may : permitted ph (.release lk) = some ph') (alive : ph ≠ .dead) :
    ph = .unlocked ∧ lk ≠ .ptable ∧ ph' = .unlocked ∨
      ph = .handing lk ∧ lk ≠ .ptable ∧ ph' = .locked ∨
      lk = .ptable ∧ ph.holds ∧ ph'.holds = false ∧ ph'.role = ph.role ∧
        ph'.embryo = ph.embryo ∧ ph' ≠ .dead ∧ ph'.keeps = none := by
  cases ph with
  | unlocked | locked | choosing =>
      simp only [permitted] at may
      split at may <;> cases may <;>
        simp_all [Phase.holds, Phase.role, Phase.embryo, Phase.keeps]
  | allocated p | handing lk' =>
      simp only [permitted, Stmt.release.injEq] at may
      split at may <;> cases may <;>
        simp_all [Phase.holds, Phase.role, Phase.embryo, Phase.keeps]
  | dead => exact absurd rfl alive
  | _ => simp [permitted] at may

/-- `release` of another lock than `ptable.lock`. -/
theorem release_other (ordered : m.Ordered phase) {lk : Lock} {ph : Phase slots}
    (other : lk ≠ .ptable) (here : m.held lk = some c) (rest : Disciplined ph k)
    (holds : ph.holds = (phase c).holds) (role : ph.role = (phase c).role)
    (embryo : ph.embryo = none) (keeps : ph.keeps = none) (alive : ph ≠ .dead) :
    ({ m with held := Function.update m.held lk none }.goto c k).Ordered
      (Function.update phase c ph) := by
  refine ordered.advance (k := k) rfl rfl rfl rfl (fun _ => Or.inl rfl)
    ?_ ?_ ?_ ?_ ?_ ?_ ?_
  · apply ordered.lock_kept
    · exact Function.update_of_ne (Ne.symm other) _ _
    · exact holds
  · exact role
  · intro q mine
    rw [embryo] at mine
    cases mine
  · exact rest
  · exact fun dead => absurd dead alive
  · exact fun c' lk' => held_released here c' lk'
  · intro lk' mine
    rw [keeps] at mine
    cases mine

theorem runRelease (ordered : m.Ordered phase) {lk : Lock} (code : m.code c = .release lk :: k)
    (step : Stmt.runRelease c k m lk = some m') : ∃ phase', m'.Ordered phase' := by
  rcases ordered.next code (by simp) with ⟨alive, ph, may, rest⟩
  unfold Stmt.runRelease at step
  rcases permitted_release may alive with ⟨before, other, rfl⟩ | ⟨before, other, rfl⟩ |
    ⟨rfl, holds, free, role, embryo, lives, keeps⟩
  · split at step
    · next here =>
        cases step
        refine ⟨Function.update phase c .unlocked, ordered.release_other other here rest ?_ ?_
          rfl rfl (by simp)⟩
        · rw [before]
        · rw [before]
    · cases step
      exact ⟨_, ordered.panic before (.release other _)⟩
  · have here : m.held lk = some c := by
      apply ordered.keeps
      rw [before]
      rfl
    rw [if_pos here] at step
    cases step
    refine ⟨Function.update phase c .locked, ordered.release_other other here rest ?_ ?_
      rfl rfl (by simp)⟩
    · rw [before]
      rfl
    · rw [before]
      rfl
  · have here := (ordered.lock c).mpr holds
    rw [if_pos here] at step
    cases step
    refine ⟨Function.update phase c ph, ?_⟩
    refine ordered.advance (k := k) rfl rfl rfl rfl (fun _ => Or.inl rfl)
      ?_ ?_ ?_ ?_ ?_ ?_ ?_
    · apply ordered.lock_released holds (Function.update_self Lock.ptable _ m.held)
      rw [free]
      exact Bool.false_ne_true
    · exact role
    · intro q mine
      rwa [embryo] at mine
    · exact rest
    · exact fun dead => absurd dead lives
    · exact fun c' lk' => held_released here c' lk'
    · intro lk' mine
      rw [keeps] at mine
      cases mine

/-! ## Statements of a process -/

/-- A field of a slot is written; its state is not. -/
theorem set_calm {me : Fin slots} {proc : Proc slots} (state : proc.state = (m.proc me).state)
    (p : Fin slots) : Calm (m.proc p).state (Function.update m.proc me proc p).state := by
  left
  by_cases same : p = me
  · subst same
    rw [Function.update_self, state]
  · rw [Function.update_of_ne same]

theorem set_other {me : Fin slots} {proc : Proc slots} {p : Fin slots} (other : p ≠ me) :
    (Function.update m.proc me proc p).state = (m.proc p).state := by
  rw [Function.update_of_ne other]

theorem runUser (ordered : m.Ordered phase) (code : m.code c = .user :: k) (entry : Entry) :
    (m.goto c (entry.code ++ .user :: k)).Ordered phase := by
  have follows := ordered.code c
  rcases ordered.next code (by simp) with ⟨alive, ph, may, rest⟩
  have before : phase c = .unlocked := by
    cases at_ : phase c <;> simp_all [permitted]
  rw [before, code] at follows
  refine ordered.goto rfl rfl rfl rfl rfl (fun _ => Or.inl rfl) ?_ alive
  rw [before]
  exact disciplined_entry entry follows

theorem runCall (ordered : m.Ordered phase) {me : Fin slots} {function : Call slots}
    (code : m.code c = .kernel :: k) (step : Stmt.runCall c k m me function = some m') :
    m'.Ordered phase := by
  have follows := ordered.code c
  rcases ordered.next code (by simp) with ⟨alive, ph, may, rest⟩
  have before : phase c = .unlocked := by
    cases at_ : phase c <;> simp_all [permitted]
  rw [before, code] at follows
  have called : m' = m.goto c (function.code ++ .kernel :: k) := by
    unfold Stmt.runCall at step
    split at step
    · split at step
      · cases step
        rfl
      · cases step
    · cases step
      rfl
  subst called
  refine ordered.goto rfl rfl rfl rfl rfl (fun _ => Or.inl rfl) ?_ alive
  rw [before]
  exact disciplined_call function follows

theorem runSleep (ordered : m.Ordered phase) {chan : Option (Chan slots)} {lk : Lock}
    (code : m.code c = .sleep chan lk :: k)
    (step :
      (if m.held lk = some c then some ((m.note c (.sleep · chan lk)).goto c k)
        else some (m.goto c (.panic "sleep: no lock held\n" :: .sleep chan lk :: k))) =
        some m') :
    ∃ phase', m'.Ordered phase' := by
  rcases ordered.next code (by simp) with ⟨alive, ph, may, rest⟩
  have cases_ : phase c = .unlocked ∧ lk ≠ .ptable ∧ ph = .entering lk ∨
      phase c = .locked ∧ lk = .ptable ∧ ph = .locked := by
    cases at_ : phase c with
    | unlocked | locked =>
        simp only [at_, permitted] at may
        split at may <;> simp_all
    | dead => exact absurd at_ alive
    | _ => simp [at_, permitted] at may
  rcases cases_ with ⟨before, other, rfl⟩ | ⟨before, rfl, rfl⟩
  · split at step
    · next held =>
        cases step
        refine ⟨Function.update phase c (.entering lk), ?_⟩
        refine ordered.advance (k := k) rfl rfl rfl rfl (fun _ => Or.inl rfl)
          ?_ ?_ ?_ ?_ ?_ ?_ ?_
        · apply ordered.lock_kept rfl
          rw [before]
          rfl
        · rw [before]
          rfl
        · exact fun _ never => by cases never
        · exact rest
        · simp
        · exact fun _ _ _ there => there
        · intro lk' mine
          cases mine
          exact held
    · cases step
      exact ⟨_, ordered.panic before (.sleep chan other _)⟩
  · have held : m.held .ptable = some c := by
      apply (ordered.lock c).mpr
      rw [before]
      rfl
    rw [if_pos held] at step
    cases step
    refine ⟨phase, ordered.goto (k := k) rfl rfl rfl rfl rfl (fun _ => Or.inl rfl) ?_ alive⟩
    rwa [before]

/-- The process leaves its processor: `setSleeping`, `setRunnable` and `exit`. -/
theorem runLeave (ordered : m.Ordered phase) {me : Fin slots} {stmt : Stmt slots}
    {ph : Phase slots}
    (code : m.code c = stmt :: k) (here : m.current c = some me)
    (next : ∀ before, permitted before stmt = some ph ∧ before = .locked ∨
      permitted before stmt = none ∨ before = .dead)
    (calm : ∀ message, stmt ≠ .panic message)
    (left : ph = .leaving ∨ ph = .dying)
    (code' : m'.code = Function.update m.code c k)
    (current : m'.current = m.current)
    (context : m'.context = m.context)
    (scheduler : m'.scheduler = m.scheduler)
    (held : m'.held = m.held)
    (allowed : ph.role.Allows (m'.proc me).state)
    (states : ∀ p, p ≠ me → Calm (m.proc p).state (m'.proc p).state) :
    m'.Ordered (Function.update phase c ph) := by
  rcases ordered.next code calm with ⟨alive, ph', may, rest⟩
  rcases next (phase c) with ⟨goes, before⟩ | never | dead
  · rw [goes] at may
    cases may
    exact ordered.leave code' current context scheduler held here before left allowed states rest
  · rw [never] at may
    cases may
  · exact absurd dead alive

theorem runWakeup1 (ordered : m.Ordered phase) {chan : Option (Chan slots)}
    (code : m.code c = .wakeup1 chan :: k) (woken : Fin slots → Bool) :
    ({ m.wake woken with proc := m.proc.wakeup1 chan }.goto c k).Ordered phase := by
  rcases ordered.next code (by simp) with ⟨alive, ph, may, rest⟩
  have before : phase c = .locked ∧ ph = .locked := by
    cases at_ : phase c <;> simp_all [permitted]
  rcases before with ⟨before, rfl⟩
  refine ordered.goto (k := k) rfl rfl rfl rfl rfl ?_ ?_ alive
  · intro p
    change Calm _ (m.proc.wakeup1 chan p).state
    rw [Table.wakeup1_apply]
    by_cases asleep : (m.proc p).state = .SLEEPING ∧ (m.proc p).chan = chan
    · exact Or.inr ⟨asleep.1, if_pos asleep⟩
    · exact Or.inl (if_neg asleep)
  · rwa [before]

theorem runExit (ordered : m.Ordered phase) {me : Fin slots}
    (code : m.code c = .exit :: k) (here : m.current c = some me) :
    (Stmt.runExit c k m me).Ordered (Function.update phase c .dying) := by
  refine ordered.runLeave code here (fun before => ?_) (by simp) (Or.inr rfl) rfl rfl rfl rfl rfl
    ?_ ?_
  · cases before <;> simp [permitted]
  · change (m.proc.exit me m.initproc me).state = .ZOMBIE
    rw [Table.exit_apply]
    exact if_pos rfl
  · intro p other
    change Calm _ (m.proc.exit me m.initproc p).state
    rw [Table.exit_apply]
    by_cases wakes : m.proc.wakes me m.initproc p
    · have asleep : (m.proc p).state = .SLEEPING := by
        simp only [Table.wakes, decide_eq_true_eq] at wakes
        exact wakes.1
      exact Or.inr ⟨asleep, (if_neg other).trans (if_pos wakes)⟩
    · exact Or.inl ((if_neg other).trans (if_neg wakes))

theorem runWait (ordered : m.Ordered phase) {me : Fin slots} (code : m.code c = .wait :: k) :
    (Stmt.runWait c k m me).Ordered phase := by
  have follows := ordered.code c
  rcases ordered.next code (by simp) with ⟨alive, ph, may, rest⟩
  have before : phase c = .locked ∧ ph = .unlocked := by
    cases at_ : phase c <;> simp_all [permitted]
  rcases before with ⟨before, rfl⟩
  have release : Disciplined .locked (.release .ptable :: k) :=
    (follows_cons (b := Phase.unlocked) rfl).mpr rest
  unfold Stmt.runWait
  split
  · next p found =>
      have state := (Table.zombie_state found).2
      have holds : (phase c).holds := holds_locked before
      have absent (c' : Fin cpus) : m.current c' ≠ some p := by
        intro there
        by_cases same : c' = c
        · subst same
          have allowed := ordered.state c' p there
          rw [before] at allowed
          rw [state] at allowed
          cases allowed
        · have running := ordered.other_state holds same there
          rw [state] at running
          cases running
      have unused : (m.proc.reap p p).state = .UNUSED := by
        unfold Table.reap
        rw [Function.update_self]
      have kept (q : Fin slots) (other : q ≠ p) :
          (m.proc.reap p q).state = (m.proc q).state := by
        unfold Table.reap
        rw [Function.update_of_ne other]
      apply ordered.slot_kept (k := .release .ptable :: k) (q := p)
      · rfl
      · rfl
      · intro q other
        exact Function.update_of_ne other _ _
      · rfl
      · rfl
      · exact absent
      · exact kept
      · rw [state]
        simp
      · change (m.proc.reap p p).state ≠ _
        rw [unused]
        simp
      · change (m.proc.reap p p).state = _ ∨ (m.proc.reap p p).state = _ ∨
          (m.proc.reap p p).state = _ → _
        rw [unused]
        intro never
        rcases never with never | never | never <;> cases never
      · rw [before]
        exact release
      · exact alive
      · rw [before]
        rfl
      · rw [before]
        rfl
  · split
    · refine ordered.goto (k := .release .ptable :: k) rfl rfl rfl rfl rfl
        (fun _ => Or.inl rfl) ?_ alive
      rwa [before]
    · refine ordered.goto rfl rfl rfl rfl rfl (fun _ => Or.inl rfl) ?_ alive
      rw [before, code] at follows
      rw [before]
      exact (follows_append (walk_sleep_ptable _)).mpr follows

/-- A slot that no process has is nobody's. -/
theorem absent_of_state (ordered : m.Ordered phase) {q : Fin slots}
    (state : (m.proc q).state = .UNUSED ∨ (m.proc q).state = .EMBRYO) (c' : Fin cpus) :
    m.current c' ≠ some q := by
  intro there
  have allowed := ordered.state c' q there
  cases role : (phase c').role <;> rw [role] at allowed <;>
    simp only [Role.Allows] at allowed <;> rcases state with state | state <;>
    simp [state] at allowed

/-- A slot has been allocated: by `proc_alloc`, or before there are processes. -/
theorem allocate (ordered : m.Ordered phase) {p : Fin slots} {ph : Phase slots}
    {m' : Machine slots cpus}
    (unused : (m.proc p).state = .UNUSED)
    (code : m'.code = Function.update m.code c k)
    (current : m'.current = m.current)
    (context : m'.context = Function.update m.context p (some Code.forkret))
    (scheduler : m'.scheduler = m.scheduler)
    (held : m'.held = m.held)
    (states : ∀ q, q ≠ p → (m'.proc q).state = (m.proc q).state)
    (state : (m'.proc p).state ≠ .RUNNING)
    (holds : ph.holds = (phase c).holds)
    (role : ph.role = (phase c).role)
    (embryo : ∀ q, ph.embryo = some q → q = p ∧ (m'.proc p).state = .EMBRYO)
    (follows : Disciplined ph k)
    (alive : ph ≠ .dead)
    (keeps : ph.keeps = none) :
    m'.Ordered (Function.update phase c ph) := by
  apply ordered.slot code current ?_ scheduler held holds role
    (ordered.absent_of_state (Or.inl unused)) states state ?_ ?_ embryo follows alive keeps
  · intro q other
    rw [context]
    exact Function.update_of_ne other _ _
  · intro _
    refine ⟨Code.forkret, ?_, disciplined_forkret⟩
    rw [context]
    exact Function.update_self _ _ _
  · intro c' _ here
    have state := ordered.embryo c' p here
    rw [unused] at state
    cases state

theorem alloc_state {t : Table slots} (p : Fin slots) (page pid : Nat) :
    (t.alloc p page pid p).state = .EMBRYO := by
  unfold Table.alloc
  rw [Function.update_self]

theorem alloc_other {t : Table slots} {p q : Fin slots} (page pid : Nat) (other : q ≠ p) :
    t.alloc p page pid q = t q := by
  unfold Table.alloc
  rw [Function.update_of_ne other]

theorem runAlloc (ordered : m.Ordered phase) {a : Action slots} {me : Fin slots}
    (code : m.code c = .proc_alloc :: k) (step : Stmt.runAlloc c k m a me = some m') :
    ∃ phase', m'.Ordered phase' := by
  rcases ordered.next code (by simp) with ⟨alive, ph, may, rest⟩
  have before : phase c = .locked ∧ ph = .unlocked := by
    cases at_ : phase c <;> simp_all [permitted]
  rcases before with ⟨before, rfl⟩
  unfold Stmt.runAlloc at step
  split at step
  · cases step
    refine ⟨phase, ordered.goto (k := .release .ptable :: k) rfl rfl rfl rfl rfl
      (fun _ => Or.inl rfl) ?_ alive⟩
    rw [before]
    exact (follows_cons (b := Phase.unlocked) rfl).mpr rest
  · next p found =>
      have unused := Table.unused_state found
      split at step
      · cases step
        refine ⟨phase, ordered.goto rfl rfl rfl rfl rfl (set_calm rfl) ?_ alive⟩
        rw [before]
        refine (follows_cons (b := Phase.unlocked) rfl).mpr ?_
        exact (follows_cons (b := Phase.dead) rfl).mpr (disciplined_dead _)
      · next page =>
          split at step
          · cases step
            refine ⟨Function.update phase c (.allocated p), ?_⟩
            apply ordered.allocate (k := .release .ptable :: .copyuvm p :: k) unused
            · rfl
            · rfl
            · rfl
            · rfl
            · rfl
            · intro q other
              exact congrArg Proc.state (alloc_other page m.nextpid other)
            · change (m.proc.alloc p page m.nextpid p).state ≠ _
              rw [alloc_state]
              simp
            · rw [before]
              rfl
            · rw [before]
              rfl
            · intro q here
              cases here
              exact ⟨rfl, alloc_state p page m.nextpid⟩
            · refine (follows_cons (b := Phase.building p) (by simp [permitted])).mpr ?_
              exact (follows_cons (b := Phase.unlocked) (by simp [permitted])).mpr rest
            · simp
            · rfl
          · cases step
      · cases step

theorem runCopyuvm (ordered : m.Ordered phase) {a : Action slots} {p : Fin slots}
    (code : m.code c = .copyuvm p :: k) (step : Stmt.runCopyuvm c k m p a = some m') :
    ∃ phase', m'.Ordered phase' := by
  rcases ordered.next code (by simp) with ⟨alive, ph, may, rest⟩
  have before : phase c = .building p ∧ ph = .unlocked := by
    cases at_ : phase c <;> simp_all [permitted]
  rcases before with ⟨before, rfl⟩
  have state : (m.proc p).state = .EMBRYO := by
    apply ordered.embryo c
    rw [before]
    rfl
  unfold Stmt.runCopyuvm at step
  split at step
  · cases step
    refine ⟨phase, ordered.goto rfl rfl rfl rfl rfl (fun _ => Or.inl rfl) ?_ ?_⟩
    · rw [before]
      refine (follows_cons (b := Phase.born p) (by simp [permitted])).mpr ?_
      refine (follows_cons (b := Phase.unlocked) (by simp [permitted])).mpr ?_
      exact (follows_cons (b := Phase.unlocked) rfl).mpr rest
    · rw [before]
      simp
  · cases step
    refine ⟨Function.update phase c .unlocked, ?_⟩
    apply ordered.slot (k := k) (q := p)
    · rfl
    · rfl
    · intro q other
      exact Function.update_of_ne other _ _
    · rfl
    · rfl
    · rw [before]
      rfl
    · rw [before]
      rfl
    · exact ordered.absent_of_state (Or.inr state)
    · intro q other
      exact set_other other
    · change (Function.update m.proc p _ p).state ≠ _
      rw [Function.update_self]
      simp
    · change (Function.update m.proc p _ p).state = _ ∨ (Function.update m.proc p _ p).state = _ ∨
        (Function.update m.proc p _ p).state = _ → _
      rw [Function.update_self]
      intro never
      rcases never with never | never | never <;> cases never
    · intro c' other here
      apply other
      apply ordered.owner c' c p here
      rw [before]
      rfl
    · exact fun _ never => by cases never
    · exact rest
    · simp
    · rfl
  · cases step

theorem setChildRunnable (ordered : m.Ordered phase) {p : Fin slots}
    (code : m.code c = .setChildRunnable p :: k) :
    ((m.set p { m.proc p with state := .RUNNABLE }).goto c k).Ordered
      (Function.update phase c .unlocked) := by
  rcases ordered.next code (by simp) with ⟨alive, ph, may, rest⟩
  have before : phase c = .born p ∧ ph = .unlocked := by
    cases at_ : phase c <;> simp_all [permitted]
  rcases before with ⟨before, rfl⟩
  have state : (m.proc p).state = .EMBRYO := by
    apply ordered.embryo c
    rw [before]
    rfl
  have absent := ordered.absent_of_state (Or.inr state)
  apply ordered.slot (k := k) (q := p)
  · rfl
  · rfl
  · exact fun _ _ => rfl
  · rfl
  · rfl
  · rw [before]
    rfl
  · rw [before]
    rfl
  · exact absent
  · intro q other
    exact set_other other
  · change (Function.update m.proc p _ p).state ≠ _
    rw [Function.update_self]
    simp
  · intro _
    apply ordered.context
    exact Or.inl ⟨Or.inr (Or.inr state), fun c' there => absurd there (absent c')⟩
  · intro c' other here
    apply other
    apply ordered.owner c' c p here
    rw [before]
    rfl
  · exact fun _ never => by cases never
  · exact rest
  · simp
  · rfl

theorem setParent (ordered : m.Ordered phase) {p : Fin slots} {proc : Proc slots}
    {events : List (Event slots)}
    (code : m.code c = .setParent p :: k) (state : proc.state = (m.proc p).state) :
    (((m.record events).set p proc).goto c k).Ordered (Function.update phase c (.born p)) := by
  rcases ordered.next code (by simp) with ⟨alive, ph, may, rest⟩
  have before : phase c = .building p ∧ ph = .born p := by
    cases at_ : phase c <;> simp_all [permitted]
  rcases before with ⟨before, rfl⟩
  refine ordered.advance (k := k) rfl rfl rfl rfl (set_calm state) ?_ ?_ ?_ ?_ ?_ ?_ ?_
  · apply ordered.lock_kept rfl
    rw [before]
    rfl
  · rw [before]
    rfl
  · intro q here
    rw [before]
    exact here
  · exact rest
  · simp
  · exact fun _ _ _ there => there
  · exact fun _ never => by cases never

theorem runAcquiresleep (ordered : m.Ordered phase) {l : Nat} {me : Fin slots}
    (code : m.code c = .acquiresleep l :: k) :
    (Stmt.runAcquiresleep c k m l me).Ordered phase := by
  have follows := ordered.code c
  rcases ordered.next code (by simp) with ⟨alive, ph, may, rest⟩
  have before : phase c = .unlocked ∧ ph = .unlocked := by
    cases at_ : phase c <;> simp_all [permitted]
  rcases before with ⟨before, rfl⟩
  rw [before, code] at follows
  have other : Lock.inner l ≠ .ptable := (by simp)
  unfold Stmt.runAcquiresleep
  split
  · refine ordered.goto rfl rfl rfl rfl rfl (fun _ => Or.inl rfl) ?_ alive
    rw [before]
    exact (follows_append (walk_sleep_spin _ other)).mpr follows
  · refine ordered.goto rfl rfl rfl rfl rfl (fun _ => Or.inl rfl) ?_ alive
    rw [before]
    exact (follows_cons (b := Phase.unlocked) (by simp [permitted])).mpr rest

/-- The other statements of a process neither concern the lock nor change a state. -/
theorem quiet (ordered : m.Ordered phase) {stmt : Stmt slots}
    (code : m.code c = stmt :: k)
    (stays : ∀ ph, permitted ph stmt = some ph ∨ permitted ph stmt = none)
    (calm : ∀ message, stmt ≠ .panic message)
    (code' : m'.code = Function.update m.code c k)
    (current : m'.current = m.current)
    (context : m'.context = m.context)
    (scheduler : m'.scheduler = m.scheduler)
    (held : m'.held = m.held)
    (states : ∀ p, (m'.proc p).state = (m.proc p).state) :
    m'.Ordered phase := by
  rcases ordered.next code calm with ⟨alive, ph, may, rest⟩
  rcases stays (phase c) with same | never
  · rw [same] at may
    cases may
    exact ordered.goto code' current context scheduler held (fun p => Or.inl (states p)) rest alive
  · rw [never] at may
    cases may

/-- A slot is written, but not its state. -/
theorem set_states {me : Fin slots} {proc : Proc slots} (state : proc.state = (m.proc me).state)
    (p : Fin slots) : (Function.update m.proc me proc p).state = (m.proc p).state := by
  by_cases same : p = me
  · subst same
    rw [Function.update_self, state]
  · rw [Function.update_of_ne same]

theorem runProc (ordered : m.Ordered phase) {a : Action slots} {me : Fin slots}
    {stmt : Stmt slots}
    (code : m.code c = stmt :: k) (here : m.current c = some me)
    (step : Stmt.runProc c k m a me stmt = some m') : ∃ phase', m'.Ordered phase' := by
  have running (before : phase c = .locked) : (m.proc me).state = .RUNNING := by
    have allowed := ordered.state c me here
    rwa [before] at allowed
  cases stmt with
  | user =>
      simp only [Stmt.runProc] at step
      split at step
      · split at step
        · cases step
          exact ⟨phase, ordered.runUser code _⟩
        · cases step
      · cases step
  | kernel =>
      simp only [Stmt.runProc] at step
      split at step
      · cases step
        exact ⟨phase, ordered.quiet code (fun ph => by cases ph <;> simp [permitted]) (by simp)
          rfl rfl rfl rfl rfl fun _ => rfl⟩
      · exact ⟨phase, ordered.runCall code step⟩
      · cases step
  | sleep chan lk => exact ordered.runSleep code step
  | setSleeping chan =>
      cases step
      refine ⟨_, ordered.runLeave code here (fun before => ?_) (by simp) (Or.inl rfl)
        rfl rfl rfl rfl rfl ?_ fun p other => Or.inl (set_other other)⟩
      · cases before <;> simp [permitted]
      · change _ ∨ (Function.update m.proc me _ me).state = _
        rw [Function.update_self]
        exact Or.inr rfl
  | setRunnable =>
      cases step
      refine ⟨_, ordered.runLeave code here (fun before => ?_) (by simp) (Or.inl rfl)
        rfl rfl rfl rfl rfl ?_ fun p other => Or.inl (set_other other)⟩
      · cases before <;> simp [permitted]
      · change (Function.update m.proc me _ me).state = _ ∨ _
        rw [Function.update_self]
        exact Or.inl rfl
  | wakeup1 chan =>
      cases step
      exact ⟨phase, ordered.runWakeup1 code _⟩
  | checkInit =>
      simp only [Stmt.runProc] at step
      split at step
      · cases step
        rcases ordered.next code (by simp) with ⟨alive, ph, may, rest⟩
        have before : phase c = .unlocked := by
          cases at_ : phase c <;> simp_all [permitted]
        exact ⟨_, ordered.panic before (.init _)⟩
      · cases step
        exact ⟨phase, ordered.quiet code (fun ph => by cases ph <;> simp [permitted]) (by simp)
          rfl rfl rfl rfl rfl fun _ => rfl⟩
  | exit =>
      cases step
      exact ⟨_, ordered.runExit code here⟩
  | wait =>
      cases step
      exact ⟨phase, ordered.runWait code⟩
  | proc_alloc => exact ordered.runAlloc code step
  | copyuvm p => exact ordered.runCopyuvm code step
  | setParent p =>
      cases step
      exact ⟨_, ordered.setParent code rfl⟩
  | setChildRunnable p =>
      cases step
      exact ⟨_, ordered.setChildRunnable code⟩
  | forkret =>
      rcases ordered.next code (by simp) with ⟨alive, ph, may, rest⟩
      have before : phase c = .unlocked ∧ ph = .unlocked := by
        cases at_ : phase c <;> simp_all [permitted]
      rcases before with ⟨before, rfl⟩
      simp only [Stmt.runProc] at step
      split at step
      · cases step
        refine ⟨phase, ordered.goto rfl rfl rfl rfl rfl (fun _ => Or.inl rfl) ?_ alive⟩
        rw [before]
        exact (follows_append walk_firstProcess).mpr rest
      · cases step
        refine ⟨phase, ordered.goto rfl rfl rfl rfl rfl (fun _ => Or.inl rfl) ?_ alive⟩
        rwa [before]
  | acquiresleep l =>
      cases step
      exact ⟨phase, ordered.runAcquiresleep code⟩
  | clearChan | drop_priority | raise_priority | set_cpus_allowed mask =>
      cases step
      exact ⟨phase, ordered.quiet code (fun ph => by cases ph <;> simp [permitted]) (by simp)
        rfl rfl rfl rfl rfl (set_states rfl)⟩
  | slept lk | returnPid p | unlock l =>
      cases step
      exact ⟨phase, ordered.quiet code (fun ph => by cases ph <;> simp [permitted]) (by simp)
        rfl rfl rfl rfl rfl fun _ => rfl⟩
  | _ => cases step

end Machine.Ordered

/-! ## All statements -/

/-- The invariant, for the phases that the processors are in. -/
def Machine.Scheduled (m : Machine slots cpus) : Prop :=
  ∃ phase, m.Ordered phase

/-- Every statement keeps the invariant. -/
theorem exec_scheduled {a : Action slots} (scheduled : m.Scheduled)
    (step : exec c a m = some m') : m'.Scheduled := by
  rcases scheduled with ⟨phase, ordered⟩
  unfold exec at step
  split at step
  · cases step
  · cases step
  · next lk k code => exact ordered.runAcquire code step
  · next lk k code => exact ordered.runRelease code step
  · next k code => exact ⟨_, ordered.runSched code step⟩
  · next k code =>
      cases step
      have follows := ordered.code c
      rcases ordered.next code (by simp) with ⟨alive, ph, may, rest⟩
      have before : phase c = .idle ∧ ph = .idle := by
        cases at_ : phase c <;> simp_all [permitted]
      rcases before with ⟨before, rfl⟩
      refine ⟨phase, ordered.goto rfl rfl rfl rfl rfl (fun _ => Or.inl rfl) ?_ alive⟩
      rw [before]
      exact (follows_append (b := Phase.idle) rfl).mpr rest
  · next k code => exact ordered.runPick code step
  · next p k code => exact ⟨_, (ordered.runSwtch code step).2⟩
  · next k code =>
      cases step
      exact ⟨_, ordered.clearProc code⟩
  · next stmt k _ _ _ _ _ _ _ _ code =>
      rcases Option.bind_eq_some_iff.mp step with ⟨me, here, step⟩
      exact ordered.runProc code here step

end PiKernel.Ptable
