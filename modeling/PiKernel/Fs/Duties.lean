import PiKernel.Fs.Held

/-!
# The duties of a process in the file system

What an action asks of the process that executes it: an inode and its copy are touched under
its sleep-lock, a block in its buffer, an operation begins and ends while no lock and no
buffer is held, and only what was taken is given back.
-/

namespace PiKernel.Fs

open PiKernel.Conc

/-- What a process has to hold for an action. -/
def Allowed {Pid : Type} : {β : Type} → Low Pid β → Held → Prop
  | _, .left (.idup i), v => v.Refers i
  | _, .left (.lastRef i), v => i ∈ v.locks
  | _, .left (.unref i), v => 0 < v.refs i
  | _, .left (.isValid i), v => i ∈ v.locks
  | _, .left (.setValid i _), v => i ∈ v.locks
  | _, .left (.acquiresleep i), v => v.Refers i ∧ v.bufs = ∅
  | _, .left (.releasesleep i), v => i ∈ v.locks
  | _, .left (.filedup f), v => 0 < v.files f
  | _, .left (.fileclose f), v => 0 < v.files f
  | _, .left (.file f), v => 0 < v.files f
  | _, .left (.off f), v => ∃ i, v.opened f = some i ∧ i ∈ v.locks
  | _, .left (.openFile f i _ _), v => v.opened f = none ∧ 0 < v.files f ∧ 0 < v.refs i
  | _, .left (.setOff f _), v => ∃ i, v.opened f = some i ∧ i ∈ v.locks
  | _, .left (.start _), v => v.Duplicated
  | _, .right (.bread _), v => v.bufs.Subsingleton
  | _, .right (.load b), v => b ∈ v.bufs
  | _, .right (.store b _), v => b ∈ v.bufs
  | _, .right (.brelse b), v => b ∈ v.bufs
  | _, .right (.absorb b), v => b ∈ v.bufs
  | _, .right .beginOp, v => v.op = false ∧ v.locks = ∅ ∧ v.bufs = ∅
  | _, .right .endOp, v => v.op = true ∧ v.locks = ∅ ∧ v.bufs = ∅
  | _, .right .commit, v => v.locks = ∅ ∧ v.bufs = ∅
  | _, .right .endCommit, v => v.locks = ∅ ∧ v.bufs = ∅
  | _, .right (.inode i), v => i ∈ v.locks
  | _, .right (.setInode i _), v => i ∈ v.locks
  | _, _, _ => True

/-- The panics about references, locks and open files. -/
def misuse : List String :=
  ["ilock: invalid inode\n", "iunlock\n", "filedup", "fileclose: invalid ref\n",
    "fileclose: pipe\n", "fileread: pipe\n", "fileread\n", "filewrite: pipe\n", "filewrite\n"]

variable {Pid : Type} [DecidableEq Pid] [Fintype Pid]

/-- What a process holds. -/
def Blocks.held (s : Blocks Pid) (p : Pid) : Option Held :=
  s.toTables.held p {b | s.holder b = some p} (s.current p).isSome

/-- The counts, and nothing is held by a process that has not been started. -/
structure Accounted (lost : Fin NINODE → Nat) (flost : Fin NFILE → Nat) (s : Blocks Pid) :
    Prop where
  counted : Counted lost flost s.toTables
  bufs : ∀ p, s.born p = false → ∀ b, s.holder b ≠ some p
  ops : ∀ p, s.born p = false → s.current p = none

def duties (lost : Fin NINODE → Nat) (flost : Fin NFILE → Nat) (sb : Superblock)
    (task : Tables Pid → Pid → Prog (Act Pid) Unit → Prop) :
    Views (blocksSystem sb task) Held where
  inv := Accounted lost flost
  view := Blocks.held
  ok action _ v := Allowed action v
  mayPanic message := message ∉ misuse
  rest _ v := v.Resting

variable
    {lost : Fin NINODE → Nat}
    {flost : Fin NFILE → Nat}
    {sb : Superblock}
    {task : Tables Pid → Pid → Prog (Act Pid) Unit → Prop}
    {p : Pid}
    {v : Held}

/-! ## Actions on tables -/

omit [Fintype Pid] in
theorem exec_ne_again {β : Type} (action : Table Pid β) (s t : Tables Pid) :
    Tables.exec action p s ≠ .again t := by
  cases action <;> simp only [Tables.exec] <;> (try split) <;> simp

section Table

variable
    {β : Type}
    {action : Table Pid β}
    {post : β → Held → Prop}

/-- An action on the tables, whatever it does to the views of others. -/
theorem table_frames (allowed : Allowed (.left action) v)
    (step : ∀ (s : Tables Pid) (value : β) (t : Tables Pid), Counted lost flost s →
      s.held p v.bufs v.op = some v → Tables.exec action p s = .done value t →
      Counted lost flost t ∧
        (∀ q, t.born q = false → s.born q = false) ∧
        (∀ q, q ≠ p → (∀ bufs op, t.held q bufs op = s.held q bufs op) ∨
          s.born q = false ∧ ∃ new, t.held q ∅ false = some new ∧ new.Resting) ∧
        ∃ mine, t.held p v.bufs v.op = some mine ∧ post value mine) :
    (duties lost flost sb task).Safe p (Prog.perform (.left action)) v post := by
  apply Views.Safe.perform allowed
  intro s accounted viewed
  rcases held_some viewed with ⟨_, same⟩
  have bufs : v.bufs = {b | s.holder b = some p} := by rw [same]
  have op : v.op = (s.current p).isSome := by rw [same]
  change s.toTables.held p _ _ = some v at viewed
  rw [← bufs, ← op] at viewed
  change (duties lost flost sb task).Accepts p s post
    ((Tables.exec action p s.toTables).map fun tables => { s with toTables := tables })
  cases effect : Tables.exec action p s.toTables with
  | done value t =>
      rcases step _ value t accounted.counted viewed effect with
        ⟨counted, borns, others, mine, viewed', kept⟩
      refine ⟨⟨counted, fun q waits => accounted.bufs q (borns q waits),
        fun q waits => accounted.ops q (borns q waits)⟩, fun q other => ?_, mine, ?_, kept⟩
      · rcases others q other with kept | ⟨waits, new, started, resting⟩
        · exact .inl (kept _ _)
        · right
          have nobufs : {b | s.holder b = some q} = ∅ :=
            Set.eq_empty_of_forall_notMem (accounted.bufs q waits)
          have noop : (s.current q).isSome = false := by simp [accounted.ops q waits]
          refine ⟨by simp [duties, Blocks.held, Tables.held, waits], new, ?_, resting⟩
          change t.held q {b | s.holder b = some q} (s.current q).isSome = some new
          rw [nobufs, noop]
          exact started
      · change t.held p {b | s.holder b = some p} (s.current p).isSome = some mine
        rw [← bufs, ← op]
        exact viewed'
  | again t => exact absurd effect (exec_ne_again action s.toTables t)
  | blocked => exact trivial

/-- An action on the tables that leaves the others alone. -/
theorem table_safe (allowed : Allowed (.left action) v)
    (step : ∀ (s : Tables Pid) (value : β) (t : Tables Pid), Counted lost flost s →
      s.held p v.bufs v.op = some v → Tables.exec action p s = .done value t →
      Moves lost flost p s t ∧
        ∃ mine, t.held p v.bufs v.op = some mine ∧ post value mine) :
    (duties lost flost sb task).Safe p (Prog.perform (.left action)) v post := by
  apply table_frames allowed
  intro s value t counted viewed effect
  rcases step s value t counted viewed effect with ⟨moves, mine⟩
  refine ⟨moves.counted, fun q waits => ?_, fun q other => .inl (moves.apart.held other), mine⟩
  rw [← moves.apart.born]
  exact waits

end Table

/-! ## Entries of the inode cache -/

section Entries

variable
    {i : Fin NINODE}
    {inum : Nat}

omit [Fintype Pid] in
/-- One more reference; the counts of the tables do not matter. -/
theorem inc_held {s : Tables Pid} {w : Held} {bufs : Set Nat} {op : Bool}
    (mine : s.held p bufs op = some w) :
    Tables.held
        { s with
          hold := Function.update s.hold p (Function.update (s.hold p) i (s.hold p i + 1)) }
        p bufs op =
      some (w.inc i) := by
  rcases held_some mine with ⟨born, rfl⟩
  simp [Tables.held, Held.inc, born]

omit [Fintype Pid] in
theorem dec_held {s : Tables Pid} {w : Held} {bufs : Set Nat} {op : Bool}
    (mine : s.held p bufs op = some w) :
    Tables.held
        { s with
          hold := Function.update s.hold p (Function.update (s.hold p) i (s.hold p i - 1)) }
        p bufs op =
      some (w.dec i) := by
  rcases held_some mine with ⟨born, rfl⟩
  simp [Tables.held, Held.dec, born]

theorem iget_safe {post : Option (Fin NINODE) → Held → Prop} (full : post none v)
    (found : ∀ i, post (some i) (v.inc i)) :
    (duties lost flost sb task).Safe p (Prog.perform (.left (.iget inum))) v post := by
  refine table_safe ?_ ?_
  · trivial
  intro s value t counted mine effect
  have born := (held_some mine).1
  cases effect
  simp only [Tables.iget]
  cases cached : s.find inum with
  | some i =>
      have used : 0 < s.ref i := by
        have this := List.find?_some cached
        simp only [Bool.and_eq_true, decide_eq_true_eq] at this
        exact this.1
      exact ⟨⟨counted.idup born used, hold_apart _ _ _⟩, _, inc_held mine, found i⟩
  | none =>
      cases empty : s.empty with
      | some i =>
          have unused : s.ref i = 0 := by simpa using List.find?_some empty
          exact ⟨⟨counted.recycle born cached unused, hold_apart _ _ _⟩, _,
            inc_held mine, found i⟩
      | none => exact ⟨.refl counted, _, mine, full⟩

theorem idup_safe {post : Unit → Held → Prop} (refers : v.Refers i) (holds : post () (v.inc i)) :
    (duties lost flost sb task).Safe p (Prog.perform (.left (.idup i))) v post := by
  refine table_safe refers ?_
  intro s value t counted mine effect
  have born := (held_some mine).1
  cases effect
  exact ⟨⟨counted.idup born (counted.refers mine refers), hold_apart _ _ _⟩, _,
    inc_held mine, holds⟩

theorem refOf_safe {post : Nat → Held → Prop} (refers : v.Refers i)
    (holds : ∀ n, 0 < n → post n v) :
    (duties lost flost sb task).Safe p (Prog.perform (.left (.refOf i))) v post := by
  refine table_safe ?_ ?_
  · trivial
  intro s value t counted mine effect
  cases effect
  exact ⟨.refl counted, _, mine, holds _ (counted.refers mine refers)⟩

theorem inumOf_safe {post : Nat → Held → Prop} (holds : ∀ n, post n v) :
    (duties lost flost sb task).Safe p (Prog.perform (.left (.inumOf i))) v post := by
  refine table_safe ?_ ?_
  · trivial
  intro s value t counted mine effect
  cases effect
  exact ⟨.refl counted, _, mine, holds _⟩

theorem lastRef_safe {post : Nat → Held → Prop} (locked : i ∈ v.locks)
    (holds : ∀ n, post n v) :
    (duties lost flost sb task).Safe p (Prog.perform (.left (.lastRef i))) v post := by
  refine table_safe locked ?_
  intro s value t counted mine effect
  have born := (held_some mine).1
  cases effect
  have apart : Apart p s
      { s with frees := Function.update s.frees p (s.frees p || s.ref i == 1) } :=
    ⟨rfl, fun _ _ => rfl, fun _ _ => rfl, fun _ _ => rfl, fun _ _ => rfl,
      fun _ _ _ _ => rfl, fun _ _ _ => Iff.rfl⟩
  exact ⟨counted.same born apart rfl rfl rfl rfl fun _ => ⟨rfl, rfl, rfl⟩, _, mine, holds _⟩

theorem isValid_safe {post : Bool → Held → Prop} (locked : i ∈ v.locks)
    (holds : ∀ valid, post valid v) :
    (duties lost flost sb task).Safe p (Prog.perform (.left (.isValid i))) v post := by
  refine table_safe locked ?_
  intro s value t counted mine effect
  cases effect
  exact ⟨.refl counted, _, mine, holds _⟩

theorem setValid_safe {post : Unit → Held → Prop} {valid : Bool} (locked : i ∈ v.locks)
    (holds : post () v) :
    (duties lost flost sb task).Safe p (Prog.perform (.left (.setValid i valid))) v post := by
  refine table_safe locked ?_
  intro s value t counted mine effect
  have born := (held_some mine).1
  cases effect
  have apart : Apart p s { s with valid := Function.update s.valid i valid } :=
    ⟨rfl, fun _ _ => rfl, fun _ _ => rfl, fun _ _ => rfl, fun _ _ => rfl,
      fun _ _ _ _ => rfl, fun _ _ _ => Iff.rfl⟩
  exact ⟨counted.same born apart rfl rfl rfl rfl fun _ => ⟨rfl, rfl, rfl⟩, _, mine, holds⟩

theorem unref_safe {post : Unit → Held → Prop} (held : 0 < v.refs i) (holds : post () (v.dec i)) :
    (duties lost flost sb task).Safe p (Prog.perform (.left (.unref i))) v post := by
  refine table_safe held ?_
  intro s value t counted mine effect
  rcases held_some mine with ⟨born, same⟩
  have positive : 0 < s.hold p i := by
    rw [same] at held
    exact held
  cases effect
  exact ⟨⟨counted.unref born positive, hold_apart _ _ s.valid⟩, _, dec_held mine, holds⟩

/-! ## Sleep-locks of inodes -/

theorem acquiresleep_safe {post : Unit → Held → Prop} (refers : v.Refers i)
    (empty : v.bufs = ∅) (holds : i ∉ v.locks → post () (v.lock i)) :
    (duties lost flost sb task).Safe p (Prog.perform (.left (.acquiresleep i))) v post := by
  refine table_safe ⟨refers, empty⟩ ?_
  intro s value t counted mine effect
  rcases held_some mine with ⟨born, same⟩
  simp only [Tables.exec] at effect
  split at effect
  · next free =>
      cases effect
      have missing : i ∉ v.locks := by
        rw [same]
        simp [free]
      have apart : Apart p s { s with lock := Function.update s.lock i (some p) } := by
        refine ⟨rfl, fun _ _ => rfl, fun _ _ => rfl, fun _ _ => rfl, fun _ _ => rfl,
          fun _ _ _ _ => rfl, fun q other j => ?_⟩
        by_cases this : j = i
        · subst this
          simp [free, Ne.symm other]
        · simp [this]
      refine ⟨counted.same born apart rfl rfl rfl rfl fun _ => ⟨rfl, rfl, rfl⟩, v.lock i, ?_,
        holds missing⟩
      have locks : {j | Function.update s.lock i (some p) j = some p} =
          insert i {j | s.lock j = some p} := by
        ext j
        by_cases this : j = i
        · simp [this]
        · simp [this]
      generalize v.bufs = bufs at *
      generalize v.op = op at *
      subst same
      simp only [Tables.held, born, if_true, Held.lock, locks]
  · cases effect

theorem holdingsleep_safe {post : Bool → Held → Prop} (locked : i ∈ v.locks)
    (holds : post true v) :
    (duties lost flost sb task).Safe p (Prog.perform (.left (.holdingsleep i))) v post := by
  refine table_safe ?_ ?_
  · trivial
  intro s value t counted mine effect
  have owned : s.lock i = some p := by
    rw [(held_some mine).2] at locked
    exact locked
  cases effect
  refine ⟨.refl counted, _, mine, ?_⟩
  simpa [owned] using holds

theorem releasesleep_safe {post : Unit → Held → Prop} (locked : i ∈ v.locks)
    (holds : post () (v.unlock i)) :
    (duties lost flost sb task).Safe p (Prog.perform (.left (.releasesleep i))) v post := by
  refine table_safe locked ?_
  intro s value t counted mine effect
  rcases held_some mine with ⟨born, same⟩
  have owned : s.lock i = some p := by
    rw [same] at locked
    exact locked
  cases effect
  have apart : Apart p s { s with lock := Function.update s.lock i none } := by
    refine ⟨rfl, fun _ _ => rfl, fun _ _ => rfl, fun _ _ => rfl, fun _ _ => rfl,
      fun _ _ _ _ => rfl, fun q other j => ?_⟩
    by_cases this : j = i
    · subst this
      simp [owned, Ne.symm other]
    · simp [this]
  refine ⟨counted.same born apart rfl rfl rfl rfl fun _ => ⟨rfl, rfl, rfl⟩, v.unlock i, ?_,
    holds⟩
  have locks : {j | Function.update s.lock i none j = some p} =
      {j | s.lock j = some p} \ {i} := by
    ext j
    by_cases this : j = i
    · simp [this]
    · simp [this]
  generalize v.bufs = bufs at *
  generalize v.op = op at *
  subst same
  simp only [Tables.held, born, if_true, Held.unlock, locks]

end Entries

/-! ## Open files and descriptors -/

section Descriptors

variable
    {i : Fin NINODE}
    {f : Fin NFILE}
    {fd : Fin NOFILE}

theorem cwd_safe {post : Fin NINODE → Held → Prop} (holds : ∀ i, v.cwd = some i → post i v) :
    (duties lost flost sb task).Safe p (Prog.perform (.left .cwd)) v post := by
  refine table_safe ?_ ?_
  · trivial
  intro s value t counted mine effect
  simp only [Tables.exec] at effect
  split at effect
  · next here =>
      cases effect
      have cwd : v.cwd = some value := by
        rw [(held_some mine).2]
        exact here
      exact ⟨.refl counted, _, mine, holds value cwd⟩
  · cases effect

theorem setCwd_safe {post : Unit → Held → Prop} {cwd : Option (Fin NINODE)}
    (holds : post () { v with cwd := cwd }) :
    (duties lost flost sb task).Safe p (Prog.perform (.left (.setCwd cwd))) v post := by
  refine table_safe ?_ ?_
  · trivial
  intro s value t counted mine effect
  rcases held_some mine with ⟨born, same⟩
  cases effect
  have apart : Apart p s { s with cwd := Function.update s.cwd p cwd } :=
    ⟨rfl, fun _ _ => rfl, fun _ _ => rfl, fun _ _ => rfl,
      fun _ other => Function.update_of_ne other .., fun _ _ _ _ => rfl, fun _ _ _ => Iff.rfl⟩
  refine ⟨counted.same born apart rfl rfl rfl rfl fun _ => ⟨rfl, rfl, rfl⟩, _, ?_, holds⟩
  generalize v.bufs = bufs at *
  generalize v.op = op at *
  subst same
  simp [Tables.held, born]

theorem ofile_safe {post : Option (Fin NFILE) → Held → Prop} (holds : post (v.ofile fd) v) :
    (duties lost flost sb task).Safe p (Prog.perform (.left (.ofile fd))) v post := by
  refine table_safe ?_ ?_
  · trivial
  intro s value t counted mine effect
  have here : v.ofile fd = s.ofile p fd := by rw [(held_some mine).2]
  rw [here] at holds
  cases effect
  exact ⟨.refl counted, _, mine, holds⟩

theorem setOfile_safe {post : Unit → Held → Prop} {file : Option (Fin NFILE)}
    (holds : post () (v.setOfile fd file)) :
    (duties lost flost sb task).Safe p (Prog.perform (.left (.setOfile fd file))) v post := by
  refine table_safe ?_ ?_
  · trivial
  intro s value t counted mine effect
  rcases held_some mine with ⟨born, same⟩
  cases effect
  have apart : Apart p s
      { s with ofile := Function.update s.ofile p (Function.update (s.ofile p) fd file) } :=
    ⟨rfl, fun _ _ => rfl, fun _ _ => rfl, fun _ other => Function.update_of_ne other ..,
      fun _ _ => rfl, fun _ _ _ _ => rfl, fun _ _ _ => Iff.rfl⟩
  refine ⟨counted.same born apart rfl rfl rfl rfl fun _ => ⟨rfl, rfl, rfl⟩, _, ?_, holds⟩
  generalize v.bufs = bufs at *
  generalize v.op = op at *
  subst same
  simp [Tables.held, born, Held.setOfile]

/-- The file of a descriptor keeps its inode. -/
theorem file_safe {post : OpenFile → Held → Prop} (held : 0 < v.files f)
    (holds : ∀ file : OpenFile, file.inode = v.opened f → post file v) :
    (duties lost flost sb task).Safe p (Prog.perform (.left (.file f))) v post := by
  refine table_safe held ?_
  intro s value t counted mine effect
  have same := (held_some mine).2
  have positive : 0 < s.fhold p f := by
    rw [same] at held
    exact held
  cases effect
  refine ⟨.refl counted, _, mine, holds _ ?_⟩
  rw [same]
  exact (if_pos positive).symm

theorem off_safe {post : Nat → Held → Prop} (opened : v.opened f = some i)
    (locked : i ∈ v.locks) (holds : ∀ off, post off v) :
    (duties lost flost sb task).Safe p (Prog.perform (.left (.off f))) v post := by
  refine table_safe ⟨i, opened, locked⟩ ?_
  intro s value t counted mine effect
  cases effect
  exact ⟨.refl counted, _, mine, holds _⟩

theorem setOff_safe {post : Unit → Held → Prop} {off : Nat} (opened : v.opened f = some i)
    (locked : i ∈ v.locks) (holds : post () v) :
    (duties lost flost sb task).Safe p (Prog.perform (.left (.setOff f off))) v post := by
  refine table_safe ⟨i, opened, locked⟩ ?_
  intro s value t counted mine effect
  rcases held_some mine with ⟨born, same⟩
  cases effect
  have kept : ∀ g, ((s.setFile f { s.ftable f with off := off }).ftable g).inode =
        (s.ftable g).inode ∧
      ((s.setFile f { s.ftable f with off := off }).ftable g).ref = (s.ftable g).ref ∧
      ((s.setFile f { s.ftable f with off := off }).ftable g).type = (s.ftable g).type := by
    intro g
    by_cases this : g = f
    · subst this
      simp [Tables.setFile, OpenFile.inode]
    · simp [Tables.setFile, Function.update_of_ne this]
  have apart : Apart p s (s.setFile f { s.ftable f with off := off }) :=
    ⟨rfl, fun _ _ => rfl, fun _ _ => rfl, fun _ _ => rfl, fun _ _ => rfl,
      fun _ _ g _ => (kept g).1, fun _ _ _ => Iff.rfl⟩
  refine ⟨counted.same born apart rfl rfl rfl rfl kept, v, ?_, holds⟩
  rw [← mine]
  apply held_congr
  case opened => exact fun g _ => (kept g).1
  all_goals intros
  all_goals rfl

theorem filealloc_safe {post : Option (Fin NFILE) → Held → Prop} (full : post none v)
    (found : ∀ f, v.files f = 0 → v.opened f = none → post (some f) (v.setFiles f 1)) :
    (duties lost flost sb task).Safe p (Prog.perform (.left .filealloc)) v post := by
  refine table_safe ?_ ?_
  · trivial
  intro s value t counted mine effect
  rcases held_some mine with ⟨born, same⟩
  cases effect
  simp only [Tables.filealloc]
  cases first : (List.finRange NFILE).find? fun f => (s.ftable f).ref == 0 with
  | none => exact ⟨.refl counted, _, mine, full⟩
  | some f =>
      have unused : (s.ftable f).ref = 0 := by simpa using List.find?_some first
      have none : s.fhold p f = 0 := Nat.eq_zero_of_le_zero (unused ▸ counted.fhold_le)
      have closed := counted.closed f unused
      have empty : (s.ftable f).inode = Option.none := by simp [OpenFile.inode, closed]
      refine ⟨counted.refer born rfl (by simp [unused]) (fun _ => ⟨closed, unused⟩),
        v.setFiles f 1, ?_, ?_⟩
      · have opened : (fun g => if 0 < Function.update (s.fhold p) f 1 g then
              (Function.update s.ftable f { s.ftable f with ref := 1 } g).inode
            else Option.none) =
            fun g => if 0 < s.fhold p g then (s.ftable g).inode else Option.none := by
          funext g
          by_cases this : g = f
          · subst this
            simpa [OpenFile.inode, none] using empty
          · simp [Function.update_of_ne this]
        generalize v.bufs = bufs at *
        generalize v.op = op at *
        subst same
        simp only [Tables.held, Tables.setFhold, Tables.setFile, Held.setFiles, born, if_true,
          Function.update_self, none, Nat.zero_add, opened]
      · apply found f
        · rw [same]
          exact none
        · rw [same]
          simp [none]

theorem filedup_safe {post : Bool → Held → Prop} (held : 0 < v.files f)
    (opened : v.opened f ≠ none) (holds : post true (v.setFiles f (v.files f + 1))) :
    (duties lost flost sb task).Safe p (Prog.perform (.left (.filedup f))) v post := by
  refine table_safe held ?_
  intro s value t counted mine effect
  rcases held_some mine with ⟨born, same⟩
  have positive : 0 < s.fhold p f := by
    rw [same] at held
    exact held
  have some : (s.ftable f).inode ≠ none := by
    rw [same] at opened
    simpa [positive] using opened
  have used := Nat.lt_of_lt_of_le positive (counted.fhold_le (p := p) (f := f))
  cases effect
  simp only [Tables.filedup, if_neg (Nat.not_lt.mpr used)]
  refine ⟨counted.refer born rfl rfl (fun none => absurd none some), _, ?_, holds⟩
  have kept : (fun g => if 0 < Function.update (s.fhold p) f (s.fhold p f + 1) g then
        (Function.update s.ftable f { s.ftable f with ref := (s.ftable f).ref + 1 } g).inode
      else none) =
      fun g => if 0 < s.fhold p g then (s.ftable g).inode else none := by
    funext g
    by_cases this : g = f
    · subst this
      simp [OpenFile.inode, positive]
    · simp [Function.update_of_ne this]
  generalize v.bufs = bufs at *
  generalize v.op = op at *
  subst same
  simp only [Tables.held, Tables.setFhold, Tables.setFile, Held.setFiles, born, if_true,
    Function.update_self, kept]

omit [Fintype Pid] in
theorem close_held {s : Tables Pid} {file : OpenFile} (mine : s.held p v.bufs v.op = some v)
    (held : 0 < s.fhold p f)
    (same : s.fhold p f = 1 ∨ file.inode = (s.ftable f).inode) :
    ((s.setFile f file).setFhold p f (s.fhold p f - 1)).held p v.bufs v.op =
      some (v.close f) := by
  rcases held_some mine with ⟨born, this⟩
  have opened : (fun g => if 0 < Function.update (s.fhold p) f (s.fhold p f - 1) g then
        (Function.update s.ftable f file g).inode else none) =
      Function.update (fun g => if 0 < s.fhold p g then (s.ftable g).inode else none) f
        (if s.fhold p f = 1 then none else if 0 < s.fhold p f then (s.ftable f).inode else none)
      := by
    funext g
    by_cases here : g = f
    · subst here
      simp only [Function.update_self, if_pos held]
      rcases same with one | same
      · simp [one]
      · by_cases one : s.fhold p g = 1
        · simp [one]
        · rw [if_pos (by omega), if_neg one, same]
    · simp [Function.update_of_ne here]
  generalize v.bufs = bufs at *
  generalize v.op = op at *
  subst this
  simp only [Tables.held, Tables.setFhold, Tables.setFile, Held.close, born, if_true,
    Function.update_self, opened]

theorem fileclose_safe {post : Closed → Held → Prop} (held : 0 < v.files f)
    (shared : post .shared (v.close f))
    (last : ∀ (ff : OpenFile) i, ff.type = .FD_INODE → ff.ip = some i → v.opened f = some i →
      post (.last ff) ((v.close f).inc i))
    (unopened : ∀ ff : OpenFile, ff.type = .FD_NONE → v.opened f = none →
      post (.last ff) (v.close f)) :
    (duties lost flost sb task).Safe p (Prog.perform (.left (.fileclose f))) v post := by
  refine table_safe held ?_
  intro s value t counted mine effect
  rcases held_some mine with ⟨born, same⟩
  have positive : 0 < s.fhold p f := by
    rw [same] at held
    exact held
  have few := counted.fhold_le (p := p) (f := f)
  have opened : v.opened f = (s.ftable f).inode := by
    rw [same]
    exact if_pos positive
  cases effect
  simp only [Tables.fileclose]
  rw [if_neg (by omega)]
  by_cases many : (s.ftable f).ref - 1 > 0
  · rw [if_pos many]
    refine ⟨counted.share born rfl positive ?_ many, v.close f, ?_, shared⟩
    · dsimp only
      omega
    · exact close_held mine positive (.inr rfl)
  · rw [if_neg many]
    have one : (s.ftable f).ref = 1 := by omega
    have mine' : ((s.setFile f { s.ftable f with ref := 0, type := .FD_NONE }).setFhold p f
        (s.fhold p f - 1)).held p v.bufs v.op = some (v.close f) :=
      close_held mine positive (.inl (by omega))
    cases inode : (s.ftable f).inode with
    | none =>
        have closed := (counted.fresh f inode).1
        simp only [closed]
        refine ⟨counted.last born positive one rfl rfl (fun _ _ => rfl) fun i => ?_, v.close f,
          mine', unopened _ closed (opened.trans inode)⟩
        simp [inode]
        rfl
    | some i =>
        have both : (s.ftable f).type = .FD_INODE ∧ (s.ftable f).ip = some i := by
          unfold OpenFile.inode at inode
          split at inode
          · next file => exact ⟨file, inode⟩
          · cases inode
        simp only [both.2] at mine'
        simp only [both.1, both.2]
        refine ⟨counted.last born positive one rfl rfl
          (fun _ other => Function.update_of_ne other ..) fun j => ?_, (v.close f).inc i, ?_,
          last _ i both.1 both.2 (opened.trans inode)⟩
        · have sum := sum_hold (s := s) (p := p) (i := i) (j := j) (s.hold p i + 1)
          rw [inode]
          by_cases this : j = i
          · subst this
            simp only [if_true] at sum ⊢
            omega
          · simp only [if_neg this, Option.some.injEq, if_neg (Ne.symm this)] at sum ⊢
            omega
        · exact inc_held mine'

theorem openFile_safe {post : Unit → Held → Prop} {readable writable : Bool}
    (closed : v.opened f = none) (held : 0 < v.files f) (refers : 0 < v.refs i)
    (holds : post () ((v.dec i).setOpened f (some i))) :
    (duties lost flost sb task).Safe p
      (Prog.perform (.left (.openFile f i readable writable))) v post := by
  refine table_safe ⟨closed, held, refers⟩ ?_
  intro s value t counted mine effect
  rcases held_some mine with ⟨born, same⟩
  have positive : 0 < s.fhold p f := by
    rw [same] at held
    exact held
  have empty : (s.ftable f).inode = none := by
    rw [same] at closed
    simpa [positive] using closed
  have referred : 0 < s.hold p i := by
    rw [same] at refers
    exact refers
  cases effect
  refine ⟨counted.opens born positive empty referred rfl rfl, _, ?_, holds⟩
  have opened : (fun g => if 0 < s.fhold p g then
        (Function.update s.ftable f
          { type := .FD_INODE, ref := (s.ftable f).ref, readable := readable,
            writable := writable, ip := some i, off := 0 } g).inode else none) =
      Function.update (fun g => if 0 < s.fhold p g then (s.ftable g).inode else none) f
        (some i) := by
    funext g
    by_cases this : g = f
    · subst this
      simp [positive, OpenFile.inode]
    · simp [Function.update_of_ne this]
  have mine' : (s.setFile f
        { type := .FD_INODE, ref := (s.ftable f).ref, readable := readable,
          writable := writable, ip := some i, off := 0 }).held p v.bufs v.op =
      some (v.setOpened f (some i)) := by
    generalize v.bufs = bufs at *
    generalize v.op = op at *
    subst same
    change (if s.born p = true then some _ else none) = _
    rw [if_pos born]
    simp only [Held.setOpened, ← opened]
    rfl
  exact dec_held mine'

/-- The child takes over what its parent holds for it. -/
theorem start_safe {post : Unit → Held → Prop} {child : Pid} (both : v.Duplicated)
    (holds : post () v.give) :
    (duties lost flost sb task).Safe p (Prog.perform (.left (.start child))) v post := by
  refine table_frames both ?_
  intro s value t counted mine effect
  have born := (held_some mine).1
  simp only [Tables.exec] at effect
  split at effect
  · cases effect
  · next waits =>
      have waits : s.born child = false := by simpa using waits
      cases effect
      have other : p ≠ child := by
        rintro rfl
        rw [born] at waits
        cases waits
      refine ⟨counted.start waits mine both, fun q unborn => ?_, fun q old => ?_, v.give,
        start_parent other mine, holds⟩
      · by_cases this : q = child
        · exact this ▸ waits
        · simpa [Tables.start, Function.update_of_ne this] using unborn
      · by_cases this : q = child
        · subst this
          exact .inr ⟨waits, start_resting counted waits mine both⟩
        · exact .inl fun _ _ => start_held this old

end Descriptors

/-! ## Buffers and operations -/

/-- A step on blocks changes the buffers and the operation of one process only. -/
structure Kept (p : Pid) (s t : Blocks Pid) : Prop where
  tables : ∃ frees, t.toTables = { s.toTables with frees := frees }
  holder : ∀ q, q ≠ p → ∀ b, t.holder b = some q ↔ s.holder b = some q
  current : ∀ q, q ≠ p → (t.current q).isSome = (s.current q).isSome

section Blocks

variable
    {s t : Blocks Pid}
    {b : Nat}

omit [DecidableEq Pid] [Fintype Pid] in
theorem Kept.held (kept : Kept p s t) (q : Pid) :
    t.held q = s.toTables.held q {b | t.holder b = some q} (t.current q).isSome := by
  rcases kept.tables with ⟨frees, same⟩
  unfold Blocks.held
  rw [same]
  rfl

omit [DecidableEq Pid] in
theorem Kept.accounted (kept : Kept p s t) (accounted : Accounted lost flost s)
    (born : s.born p = true) : Accounted lost flost t := by
  rcases kept.tables with ⟨frees, same⟩
  have borns : t.born = s.born := by rw [same]
  have others : ∀ q, t.born q = false → q ≠ p ∧ s.born q = false := by
    intro q waits
    rw [borns] at waits
    refine ⟨?_, waits⟩
    rintro rfl
    rw [born] at waits
    cases waits
  constructor
  · rw [same]
    exact ⟨accounted.counted.refs, accounted.counted.files, accounted.counted.closed,
      accounted.counted.fresh, accounted.counted.once, accounted.counted.unborn⟩
  · intro q waits b held
    rcases others q waits with ⟨other, waits⟩
    exact accounted.bufs q waits b ((kept.holder q other b).mp held)
  · intro q waits
    rcases others q waits with ⟨other, waits⟩
    have none := kept.current q other
    rw [accounted.ops q waits] at none
    exact Option.isNone_iff_eq_none.mp (by simpa using none)

omit [DecidableEq Pid] [Fintype Pid] in
theorem Kept.others (kept : Kept p s t) {q : Pid} (other : q ≠ p) : t.held q = s.held q := by
  have bufs : {b | t.holder b = some q} = {b | s.holder b = some q} :=
    Set.ext (kept.holder q other)
  rw [kept.held, bufs, kept.current q other]
  rfl

/-- An action on blocks, and what it leaves the process with. -/
theorem block_safe {β : Type} {action : BlockAct β} {post : β → Held → Prop}
    (allowed : Allowed (.right action : Low Pid β) v)
    (step : ∀ (s : Blocks Pid) (value : β) (t : Blocks Pid),
      v.bufs = {b | s.holder b = some p} → v.op = (s.current p).isSome →
      action.exec p s = .done value t → Kept p s t ∧
        post value { v with bufs := {b | t.holder b = some p}, op := (t.current p).isSome })
    (again : ∀ s t : Blocks Pid, action.exec p s = .again t →
      Kept p s t ∧ t.holder = s.holder ∧ t.current = s.current) :
    (duties lost flost sb task).Safe p (block action) v post := by
  refine Views.Safe.perform allowed fun s accounted viewed => ?_
  rcases held_some viewed with ⟨born, same⟩
  have bufs : v.bufs = {b | s.holder b = some p} := by rw [same]
  have op : v.op = (s.current p).isSome := by rw [same]
  change (duties lost flost sb task).Accepts p s post (action.exec p s)
  cases effect : action.exec p s with
  | done value t =>
      rcases step s value t bufs op effect with ⟨kept, holds⟩
      refine ⟨kept.accounted accounted born, fun q other => .inl (kept.others other), _, ?_,
        holds⟩
      change t.held p = _
      rw [kept.held, same]
      exact if_pos born
  | again t =>
      rcases again s t effect with ⟨kept, holder, current⟩
      refine ⟨kept.accounted accounted born, fun q other => .inl (kept.others other), ?_⟩
      change t.held p = s.held p
      rw [kept.held, holder, current]
      rfl
  | blocked => exact trivial

/-- Actions that take nothing and give nothing back. -/
def BlockAct.Silent : {β : Type} → BlockAct β → Prop
  | _, .load _ => True
  | _, .store _ _ => True
  | _, .readLog => True
  | _, .absorb _ => True
  | _, .commit => True
  | _, .endCommit => True
  | _, .inode _ => True
  | _, .setInode _ _ => True
  | _, _ => False

theorem silent_safe {β : Type} {action : BlockAct β} {post : β → Held → Prop}
    (silent : action.Silent) (allowed : Allowed (.right action : Low Pid β) v)
    (holds : ∀ value, post value v) :
    (duties lost flost sb task).Safe p (block action) v post := by
  refine block_safe allowed (fun s value t bufs op effect => ?_) fun s t effect => ?_
  · have same : t.holder = s.holder ∧ t.toTables = s.toTables ∧
        ∀ q, (t.current q).isSome = (s.current q).isSome := by
      cases action with
      | absorb b =>
          cases effect
          refine ⟨rfl, rfl, fun q => ?_⟩
          by_cases this : q = p
          · subst this
            simp [Logging.Ops.absorb]
          · simp [Logging.Ops.absorb, Function.update_of_ne this]
      | bread b => exact silent.elim
      | brelse b => exact silent.elim
      | beginOp => exact silent.elim
      | endOp => exact silent.elim
      | _ =>
          cases effect
          exact ⟨rfl, rfl, fun _ => rfl⟩
    rcases same with ⟨holder, tables, current⟩
    refine ⟨⟨⟨s.frees, tables⟩, ?_, fun q _ => current q⟩, ?_⟩
    · rw [holder]
      exact fun _ _ _ => Iff.rfl
    · rw [holder, current, ← bufs, ← op]
      exact holds value
  · cases action <;> first | cases effect | exact silent.elim

theorem bread_safe {post : Unit → Held → Prop} (few : v.bufs.Subsingleton)
    (holds : b ∉ v.bufs → post () (v.take b)) :
    (duties lost flost sb task).Safe p (block (.bread b)) v post := by
  refine block_safe few (fun s value t bufs op effect => ?_) fun s t effect => ?_
  · simp only [BlockAct.exec] at effect
    split at effect
    · next free =>
        cases effect
        refine ⟨⟨⟨s.frees, rfl⟩, fun q other c => ?_, fun _ _ => rfl⟩, ?_⟩
        · by_cases this : c = b
          · subst this
            simp [free, Ne.symm other]
          · simp [this]
        · have missing : b ∉ v.bufs := by
            rw [bufs]
            simp [free]
          have taken : {c | Function.update s.holder b (some p) c = some p} =
              insert b {c | s.holder c = some p} := by
            ext c
            by_cases this : c = b <;> simp [this]
          have whole := holds missing
          unfold Held.take at whole
          rw [bufs, ← taken, op] at whole
          exact whole
    · cases effect
  · simp only [BlockAct.exec] at effect
    split at effect <;> cases effect

theorem brelse_safe {post : Unit → Held → Prop} (held : b ∈ v.bufs)
    (holds : post () (v.drop b)) :
    (duties lost flost sb task).Safe p (block (.brelse b)) v post := by
  refine block_safe held (fun s value t bufs op effect => ?_) fun s t effect => ?_
  · cases effect
    have owned : s.holder b = some p := by
      rw [bufs] at held
      exact held
    refine ⟨⟨⟨s.frees, rfl⟩, fun q other c => ?_, fun _ _ => rfl⟩, ?_⟩
    · by_cases this : c = b
      · subst this
        simp [owned, Ne.symm other]
      · simp [this]
    · have dropped : {c | Function.update s.holder b none c = some p} =
          {c | s.holder c = some p} \ {b} := by
        ext c
        by_cases this : c = b <;> simp [this]
      unfold Held.drop at holds
      rw [bufs, ← dropped, op] at holds
      exact holds
  · cases effect

theorem beginOp_safe {post : Unit → Held → Prop} (idle : v.op = false) (locks : v.locks = ∅)
    (empty : v.bufs = ∅) (holds : post () (v.setOp true)) :
    (duties lost flost sb task).Safe p (block .beginOp) v post := by
  refine block_safe ⟨idle, locks, empty⟩ (fun s value t bufs op effect => ?_)
    fun s t effect => ?_
  · simp only [BlockAct.exec, Logging.Ops.beginOp] at effect
    split at effect
    · cases effect
    · split at effect
      · cases effect
      · cases effect
        refine ⟨⟨⟨_, rfl⟩, fun _ _ _ => Iff.rfl, fun q other => ?_⟩, ?_⟩
        · simp [Function.update_of_ne other]
        · simpa [Held.setOp, ← bufs] using holds
  · simp only [BlockAct.exec, Logging.Ops.beginOp] at effect
    split at effect
    · cases effect
    · split at effect
      · cases effect
        exact ⟨⟨⟨_, rfl⟩, fun _ _ _ => Iff.rfl, fun _ _ => rfl⟩, rfl, rfl⟩
      · cases effect

theorem endOp_safe {post : Option Bool → Held → Prop} (running : v.op = true)
    (locks : v.locks = ∅) (empty : v.bufs = ∅)
    (holds : ∀ value, post value (v.setOp false)) :
    (duties lost flost sb task).Safe p (block .endOp) v post := by
  refine block_safe ⟨running, locks, empty⟩ (fun s value t bufs op effect => ?_)
    fun s t effect => ?_
  · have ended : (s.toOps.endOp p).2.current = Function.update s.current p none := by
      unfold Logging.Ops.endOp
      dsimp only
      split
      · rfl
      · split <;> rfl
    cases effect
    refine ⟨⟨⟨s.frees, rfl⟩, fun _ _ _ => Iff.rfl, fun q other => ?_⟩, ?_⟩
    · change ((s.toOps.endOp p).2.current q).isSome = _
      rw [ended, Function.update_of_ne other]
    · change post _ { v with
        bufs := {b | s.holder b = some p}, op := ((s.toOps.endOp p).2.current p).isSome }
      rw [ended, Function.update_self, ← bufs]
      exact holds _
  · cases effect

end Blocks

end PiKernel.Fs
