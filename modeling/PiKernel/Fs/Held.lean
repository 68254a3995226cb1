import PiKernel.Conc.Count
import PiKernel.Conc.Views
import PiKernel.Fs.Operations

/-!
# What a process holds

The references, open files, locks and buffers of a process, and its operation.  The counts
of the tables are what all processes and all open files hold together, and what was lost
before the first step.  No inode has two entries that are in use.
-/

namespace PiKernel.Fs

open PiKernel.Conc

/-- The inode that a file is open on. -/
def OpenFile.inode (file : OpenFile) : Option (Fin NINODE) :=
  if file.type = .FD_INODE then file.ip else none

/-- The number of files that are open on an inode. -/
def users (ftable : Fin NFILE → OpenFile) (i : Fin NINODE) : Nat :=
  (Finset.univ.filter fun f => (ftable f).inode = some i).card

/-- The number of descriptors of an open file. -/
def slots (ofile : Fin NOFILE → Option (Fin NFILE)) (f : Fin NFILE) : Nat :=
  (List.finRange NOFILE).countP fun fd => ofile fd == some f

@[ext]
structure Held where
  refs : Fin NINODE → Nat
  files : Fin NFILE → Nat
  ofile : Fin NOFILE → Option (Fin NFILE)
  cwd : Option (Fin NINODE)
  /-- The inodes of its open files. -/
  opened : Fin NFILE → Option (Fin NINODE)
  locks : Set (Fin NINODE)
  bufs : Set Nat
  /-- Is it between `begin_op` and `end_op`? -/
  op : Bool

namespace Held

variable (v : Held) (i j : Fin NINODE) (f : Fin NFILE)

def inc : Held := { v with refs := Function.update v.refs i (v.refs i + 1) }

def dec : Held := { v with refs := Function.update v.refs i (v.refs i - 1) }

def lock : Held := { v with locks := insert i v.locks }

def unlock : Held := { v with locks := v.locks \ {i} }

def take (b : Nat) : Held := { v with bufs := insert b v.bufs }

def drop (b : Nat) : Held := { v with bufs := v.bufs \ {b} }

def setFiles (count : Nat) : Held := { v with files := Function.update v.files f count }

def setOpened (ip : Option (Fin NINODE)) : Held :=
  { v with opened := Function.update v.opened f ip }

def setOfile (fd : Fin NOFILE) (file : Option (Fin NFILE)) : Held :=
  { v with ofile := Function.update v.ofile fd file }

def setOp (op : Bool) : Held := { v with op := op }

/-- One descriptor or variable less refers to the file. -/
def close : Held :=
  { v with
    files := Function.update v.files f (v.files f - 1)
    opened := Function.update v.opened f (if v.files f = 1 then none else v.opened f) }

/-- The inode has a reference that is not dropped by others. -/
def Refers : Prop := 0 < v.refs i ∨ ∃ f, v.opened f = some i

variable {v i j f}

theorem dec_inc : (v.inc i).dec i = v := by
  simp [inc, dec]

theorem inc_comm : (v.inc i).inc j = (v.inc j).inc i := by
  by_cases same : i = j
  · rw [same]
  · simp [inc, Function.update_of_ne same, Function.update_of_ne (Ne.symm same),
      Function.update_comm same]

theorem unlock_lock (free : i ∉ v.locks) : (v.lock i).unlock i = v := by
  simp [lock, unlock, free]

theorem lock_unlock (locked : i ∈ v.locks) : (v.unlock i).lock i = v := by
  simp [lock, unlock, Set.insert_eq_of_mem locked]

theorem setOp_same (idle : v.op = false) : v.setOp false = v := by
  unfold setOp
  rw [← idle]

theorem unlock_other (free : i ∉ v.locks) (other : j ≠ i) :
    ((v.lock i).lock j).unlock i = v.lock j := by
  have locks : insert j (insert i v.locks) \ {i} = insert j v.locks := by
    ext k
    simp only [Set.mem_sdiff, Set.mem_insert_iff, Set.mem_singleton_iff]
    constructor
    · rintro ⟨rfl | rfl | held, different⟩
      · exact .inl rfl
      · exact absurd rfl different
      · exact .inr held
    · rintro (rfl | held)
      · exact ⟨.inl rfl, other⟩
      · refine ⟨.inr (.inr held), ?_⟩
        rintro rfl
        exact free held
  simp only [lock, unlock, locks]

theorem drop_take {b : Nat} (free : b ∉ v.bufs) : (v.take b).drop b = v := by
  simp [take, drop, free]

theorem inc_self : 0 < (v.inc i).refs i := by
  simp [inc]

theorem inc_pos (held : 0 < v.refs i) : 0 < (v.inc j).refs i := by
  by_cases same : i = j
  · simp [inc, same]
  · simpa [inc, Function.update_of_ne same] using held

theorem inc_refers : (v.inc i).Refers i := .inl inc_self

/-- Between two system calls a process holds its current directory and its descriptors. -/
structure Resting (v : Held) : Prop where
  refs : ∀ i, v.refs i = if v.cwd = some i then 1 else 0
  files : ∀ f, v.files f = slots v.ofile f
  opened : ∀ fd f, v.ofile fd = some f → v.opened f ≠ none
  locks : v.locks = ∅
  bufs : v.bufs = ∅
  op : v.op = false

end Held

variable {Pid : Type}

namespace Tables

/-- What a process holds; nothing if it has not been started. -/
def held (s : Tables Pid) (p : Pid) (bufs : Set Nat) (op : Bool) : Option Held :=
  if s.born p then
    some
      { refs := s.hold p
        files := s.fhold p
        ofile := s.ofile p
        cwd := s.cwd p
        opened := fun f => if 0 < s.fhold p f then (s.ftable f).inode else none
        locks := {i | s.lock i = some p}
        bufs := bufs
        op := op }
  else
    none

end Tables

/-- The counts of the tables; `lost` and `flost` are references that nobody holds. -/
structure Counted [Fintype Pid] (lost : Fin NINODE → Nat) (flost : Fin NFILE → Nat)
    (s : Tables Pid) : Prop where
  refs : ∀ i, s.ref i = lost i + ∑ p, s.hold p i + users s.ftable i
  files : ∀ f, (s.ftable f).ref = flost f + ∑ p, s.fhold p f
  closed : ∀ f, (s.ftable f).ref = 0 → (s.ftable f).type = .FD_NONE
  /-- A file without an inode is being opened. -/
  fresh : ∀ f, (s.ftable f).inode = none →
    (s.ftable f).type = .FD_NONE ∧ (s.ftable f).ref ≤ 1
  once : ∀ i j, 0 < s.ref i → 0 < s.ref j → s.inum i = s.inum j → i = j
  unborn : ∀ p, s.born p = false →
    (∀ i, s.hold p i = 0) ∧ (∀ f, s.fhold p f = 0) ∧ ∀ i, s.lock i ≠ some p

section Counted

variable
    [DecidableEq Pid]
    [Fintype Pid]
    {lost : Fin NINODE → Nat}
    {flost : Fin NFILE → Nat}
    {s : Tables Pid}
    {p : Pid}
    {i j : Fin NINODE}
    {f : Fin NFILE}

omit [DecidableEq Pid] in
theorem Counted.hold_le (counted : Counted lost flost s) : s.hold p i ≤ s.ref i := by
  have one : s.hold p i ≤ ∑ q, s.hold q i :=
    Finset.single_le_sum (f := fun q => s.hold q i) (fun _ _ => Nat.zero_le _)
      (Finset.mem_univ p)
  have all := counted.refs i
  omega

omit [DecidableEq Pid] in
theorem Counted.fhold_le (counted : Counted lost flost s) :
    s.fhold p f ≤ (s.ftable f).ref := by
  have one : s.fhold p f ≤ ∑ q, s.fhold q f :=
    Finset.single_le_sum (f := fun q => s.fhold q f) (fun _ _ => Nat.zero_le _)
      (Finset.mem_univ p)
  have all := counted.files f
  omega

omit [DecidableEq Pid] in
theorem Counted.open_ref (counted : Counted lost flost s)
    (opened : (s.ftable f).inode = some i) : 0 < s.ref i := by
  have mine : f ∈ Finset.univ.filter fun f => (s.ftable f).inode = some i := by
    simpa using opened
  have one : 0 < users s.ftable i := Finset.card_pos.mpr ⟨f, mine⟩
  have all := counted.refs i
  omega

omit [DecidableEq Pid] in
/-- A file that is not in use has no inode. -/
theorem Counted.open_files (counted : Counted lost flost s)
    (opened : (s.ftable f).inode = some i) : 0 < (s.ftable f).ref := by
  by_contra unused
  have closed := counted.closed f (by omega)
  simp [OpenFile.inode, closed] at opened

omit [DecidableEq Pid] [Fintype Pid] in
theorem held_some {v : Held} {bufs : Set Nat} {op : Bool} (mine : s.held p bufs op = some v) :
    s.born p = true ∧
      v = { refs := s.hold p
            files := s.fhold p
            ofile := s.ofile p
            cwd := s.cwd p
            opened := fun f => if 0 < s.fhold p f then (s.ftable f).inode else none
            locks := {i | s.lock i = some p}
            bufs := bufs
            op := op } := by
  unfold Tables.held at mine
  split at mine
  · next born => exact ⟨born, (Option.some.inj mine).symm⟩
  · cases mine

omit [DecidableEq Pid] in
theorem Counted.refers {v : Held} {bufs : Set Nat} {op : Bool} (counted : Counted lost flost s)
    (mine : s.held p bufs op = some v) (refers : v.Refers i) : 0 < s.ref i := by
  rcases held_some mine with ⟨_, rfl⟩
  rcases refers with positive | ⟨f, opened⟩
  · exact Nat.lt_of_lt_of_le positive counted.hold_le
  · dsimp only at opened
    split at opened
    · exact counted.open_ref opened
    · cases opened

/-! ## Sums -/

theorem sum_hold (n : Nat) :
    ∑ q, Function.update s.hold p (Function.update (s.hold p) i n) q j +
        (if j = i then s.hold p i else 0) =
      ∑ q, s.hold q j + if j = i then n else 0 := by
  have all := sum_update (fun hold : Fin NINODE → Nat => hold j) s.hold p
    (Function.update (s.hold p) i n)
  by_cases same : j = i
  · subst same
    simpa using all
  · simpa [same, Function.update_of_ne same] using all

theorem sum_fhold {g : Fin NFILE} (n : Nat) :
    ∑ q, Function.update s.fhold p (Function.update (s.fhold p) f n) q g +
        (if g = f then s.fhold p f else 0) =
      ∑ q, s.fhold q g + if g = f then n else 0 := by
  have all := sum_update (fun fhold : Fin NFILE → Nat => fhold g) s.fhold p
    (Function.update (s.fhold p) f n)
  by_cases same : g = f
  · subst same
    simpa using all
  · simpa [same, Function.update_of_ne same] using all

omit [DecidableEq Pid] [Fintype Pid] in
/-- The files that are open on an inode, when one entry changes. -/
theorem users_update (file : OpenFile) :
    users (Function.update s.ftable f file) i +
        (if (s.ftable f).inode = some i then 1 else 0) =
      users s.ftable i + if file.inode = some i then 1 else 0 :=
  card_update (fun entry : OpenFile => entry.inode = some i) s.ftable f file

/-! ## The others -/

/-- A step of one process leaves alone what the others hold. -/
structure Apart (p : Pid) (s t : Tables Pid) : Prop where
  born : t.born = s.born
  hold : ∀ q, q ≠ p → t.hold q = s.hold q
  fhold : ∀ q, q ≠ p → t.fhold q = s.fhold q
  ofile : ∀ q, q ≠ p → t.ofile q = s.ofile q
  cwd : ∀ q, q ≠ p → t.cwd q = s.cwd q
  opened : ∀ q, q ≠ p → ∀ f, 0 < s.fhold q f → (t.ftable f).inode = (s.ftable f).inode
  locks : ∀ q, q ≠ p → ∀ i, t.lock i = some q ↔ s.lock i = some q

section Others

variable
    {t : Tables Pid}
    {q : Pid}

omit [DecidableEq Pid] [Fintype Pid] in
theorem held_congr (born : t.born q = s.born q) (hold : t.hold q = s.hold q)
    (fhold : t.fhold q = s.fhold q) (ofile : t.ofile q = s.ofile q) (cwd : t.cwd q = s.cwd q)
    (opened : ∀ f, 0 < s.fhold q f → (t.ftable f).inode = (s.ftable f).inode)
    (locks : ∀ i, t.lock i = some q ↔ s.lock i = some q) (bufs : Set Nat) (op : Bool) :
    t.held q bufs op = s.held q bufs op := by
  have inodes : (fun f => if 0 < s.fhold q f then (t.ftable f).inode else none) =
      fun f => if 0 < s.fhold q f then (s.ftable f).inode else none := by
    funext f
    split
    · next held => exact opened f held
    · rfl
  have set : {i | t.lock i = some q} = {i | s.lock i = some q} := Set.ext locks
  unfold Tables.held
  rw [born, hold, fhold, ofile, cwd, inodes, set]

omit [DecidableEq Pid] [Fintype Pid] in
theorem Apart.held (apart : Apart p s t) (other : q ≠ p) (bufs : Set Nat) (op : Bool) :
    t.held q bufs op = s.held q bufs op :=
  held_congr (congrFun apart.born q) (apart.hold q other) (apart.fhold q other)
    (apart.ofile q other) (apart.cwd q other) (apart.opened q other) (apart.locks q other)
    bufs op

omit [DecidableEq Pid] in
theorem Apart.unborn (apart : Apart p s t) (counted : Counted lost flost s)
    (born : s.born p = true) (waits : t.born q = false) :
    (∀ i, t.hold q i = 0) ∧ (∀ f, t.fhold q f = 0) ∧ ∀ i, t.lock i ≠ some q := by
  rw [apart.born] at waits
  have other : q ≠ p := by
    rintro rfl
    rw [born] at waits
    cases waits
  rcases counted.unborn q waits with ⟨refs, files, locks⟩
  rw [apart.hold q other, apart.fhold q other]
  exact ⟨refs, files, fun i locked => locks i ((apart.locks q other i).mp locked)⟩

end Others

/-! ## References to inodes -/

omit [Fintype Pid] in
theorem hold_apart {hold : Fin NINODE → Nat} (ref inum : Fin NINODE → Nat)
    (valid : Fin NINODE → Bool) :
    Apart p s { s with
      ref := ref, inum := inum, valid := valid, hold := Function.update s.hold p hold } where
  born := rfl
  hold _ other := Function.update_of_ne other ..
  fhold _ _ := rfl
  ofile _ _ := rfl
  cwd _ _ := rfl
  opened _ _ _ _ := rfl
  locks _ _ _ := Iff.rfl

/-- The count of an entry changes by what the process holds more, or less. -/
theorem refs_balanced (counted : Counted lost flost s) {m n : Nat}
    (balance : m + s.hold p i = s.ref i + n) :
    Function.update s.ref i m j = lost j +
      ∑ q, Function.update s.hold p (Function.update (s.hold p) i n) q j +
        users s.ftable j := by
  have before := counted.refs j
  have sum := sum_hold (s := s) (p := p) (i := i) (j := j) n
  by_cases same : j = i
  · subst same
    simp only [if_true] at sum
    rw [Function.update_self]
    omega
  · simp only [if_neg same] at sum
    rw [Function.update_of_ne same]
    omega

/-- `iget` of a cached inode, and `idup`. -/
theorem Counted.idup (counted : Counted lost flost s) (born : s.born p = true)
    (used : 0 < s.ref i) : Counted lost flost (s.idup p i) where
  refs _ := refs_balanced counted (by omega)
  files := counted.files
  closed := counted.closed
  fresh := counted.fresh
  once a b first second same := by
    have positive : ∀ k, 0 < (s.idup p i).ref k → 0 < s.ref k := by
      intro k referenced
      by_cases this : k = i
      · exact this ▸ used
      · simpa [Tables.idup, Function.update_of_ne this] using referenced
    exact counted.once a b (positive a first) (positive b second) same
  unborn _ := (hold_apart _ _ _).unborn counted born

/-- `iget` of an inode that is not cached. -/
theorem Counted.recycle (counted : Counted lost flost s) (born : s.born p = true) {inum : Nat}
    (missing : s.find inum = none) (unused : s.ref i = 0) :
    Counted lost flost (s.recycle p i inum) where
  refs _ := refs_balanced counted (by omega)
  files := counted.files
  closed := counted.closed
  fresh := counted.fresh
  once := by
    have absent : ∀ k, 0 < s.ref k → s.inum k ≠ inum := by
      intro k referenced same
      have none := List.find?_eq_none.mp missing k (List.mem_finRange k)
      simp [referenced, same] at none
    intro a b first second same
    simp only [Tables.recycle] at first second same
    by_cases here : a = i <;> by_cases there : b = i
    · exact here.trans there.symm
    · rw [Function.update_of_ne there] at second
      rw [here, Function.update_self, Function.update_of_ne there] at same
      exact absurd same.symm (absent b second)
    · rw [Function.update_of_ne here] at first
      rw [there, Function.update_self, Function.update_of_ne here] at same
      exact absurd same (absent a first)
    · rw [Function.update_of_ne here] at first
      rw [Function.update_of_ne there] at second
      rw [Function.update_of_ne here, Function.update_of_ne there] at same
      exact counted.once a b first second same
  unborn _ := (hold_apart _ _ _).unborn counted born

/-- The end of `iput`. -/
theorem Counted.unref (counted : Counted lost flost s) (born : s.born p = true)
    (mine : 0 < s.hold p i) : Counted lost flost (s.unref p i) where
  refs _ := refs_balanced counted (by have := counted.hold_le (p := p) (i := i); omega)
  files := counted.files
  closed := counted.closed
  fresh := counted.fresh
  once a b first second same := by
    have positive : ∀ k, 0 < (s.unref p i).ref k → 0 < s.ref k := by
      intro k referenced
      by_cases this : k = i
      · subst this
        simp only [Tables.unref, Function.update_self] at referenced
        omega
      · simpa [Tables.unref, Function.update_of_ne this] using referenced
    exact counted.once a b (positive a first) (positive b second) same
  unborn _ := (hold_apart _ _ s.valid).unborn counted born

/-! ## References to open files -/

/-- The count of a file changes by what the process holds more, or less. -/
theorem files_balanced {g : Fin NFILE} (counted : Counted lost flost s) {file : OpenFile}
    {n : Nat} (balance : file.ref + s.fhold p f = (s.ftable f).ref + n) :
    (Function.update s.ftable f file g).ref = flost g +
      ∑ q, Function.update s.fhold p (Function.update (s.fhold p) f n) q g := by
  have before := counted.files g
  have sum := sum_fhold (s := s) (p := p) (f := f) (g := g) n
  by_cases same : g = f
  · subst same
    simp only [if_true] at sum
    rw [Function.update_self]
    omega
  · simp only [if_neg same] at sum
    rw [Function.update_of_ne same]
    omega

omit [DecidableEq Pid] [Fintype Pid] in
/-- The inodes of open files, when a file keeps its own. -/
theorem users_same {file : OpenFile} (same : file.inode = (s.ftable f).inode) :
    users (Function.update s.ftable f file) i = users s.ftable i := by
  have count := users_update (s := s) (f := f) (i := i) file
  rw [same] at count
  exact Nat.add_right_cancel count

omit [DecidableEq Pid] in
/-- If nobody else holds it, a file may change its inode. -/
theorem Counted.alone {q : Pid} (counted : Counted lost flost s) (other : q ≠ p)
    (one : (s.ftable f).ref ≤ 1) (mine : 0 < s.fhold p f) : s.fhold q f = 0 := by
  have all := counted.files f
  have pair : s.fhold q f + s.fhold p f ≤ ∑ r, s.fhold r f :=
    Finset.add_le_sum (f := fun r => s.fhold r f) (fun _ _ => Nat.zero_le _)
      (Finset.mem_univ q) (Finset.mem_univ p) other
  omega

section File

variable
    {file : OpenFile}
    {hold : Pid → Fin NINODE → Nat}
    {fhold : Pid → Fin NFILE → Nat}

omit [DecidableEq Pid] [Fintype Pid] in
theorem file_apart (holds : ∀ q, q ≠ p → hold q = s.hold q)
    (fholds : ∀ q, q ≠ p → fhold q = s.fhold q)
    (kept : ∀ q, q ≠ p → 0 < s.fhold q f → file.inode = (s.ftable f).inode) :
    Apart p s { s with
      ftable := Function.update s.ftable f file, fhold := fhold, hold := hold } where
  born := rfl
  hold := holds
  fhold := fholds
  ofile _ _ := rfl
  cwd _ _ := rfl
  opened q other g held := by
    by_cases same : g = f
    · subst same
      simpa using kept q other held
    · simp [Function.update_of_ne same]
  locks _ _ _ := Iff.rfl

omit [DecidableEq Pid] in
/-- One entry of the file table changes, together with what the process holds. -/
theorem Counted.entry (counted : Counted lost flost s) (born : s.born p = true)
    (apart : Apart p s { s with
      ftable := Function.update s.ftable f file, fhold := fhold, hold := hold })
    (refs : ∀ i, s.ref i = lost i + ∑ q, hold q i +
      users (Function.update s.ftable f file) i)
    (files : ∀ g, (Function.update s.ftable f file g).ref = flost g + ∑ q, fhold q g)
    (closed : file.ref = 0 → file.type = .FD_NONE)
    (fresh : file.inode = none → file.type = .FD_NONE ∧ file.ref ≤ 1) :
    Counted lost flost { s with
      ftable := Function.update s.ftable f file, fhold := fhold, hold := hold } where
  refs := refs
  files := files
  closed g := by
    by_cases same : g = f
    · subst same
      simpa using closed
    · simpa [Function.update_of_ne same] using counted.closed g
  fresh g := by
    by_cases same : g = f
    · subst same
      simpa using fresh
    · simpa [Function.update_of_ne same] using counted.fresh g
  once := counted.once
  unborn _ := apart.unborn counted born

end File

/-- A step of a process that keeps the counts. -/
structure Moves (lost : Fin NINODE → Nat) (flost : Fin NFILE → Nat) (p : Pid)
    (s t : Tables Pid) : Prop where
  counted : Counted lost flost t
  apart : Apart p s t

omit [DecidableEq Pid] in
theorem Moves.refl (counted : Counted lost flost s) : Moves lost flost p s s :=
  ⟨counted, rfl, fun _ _ => rfl, fun _ _ => rfl, fun _ _ => rfl, fun _ _ => rfl,
    fun _ _ _ _ => rfl, fun _ _ _ => Iff.rfl⟩

theorem inode_none {file : OpenFile} (closed : file.type = .FD_NONE) : file.inode = none := by
  simp [OpenFile.inode, closed]

/-- Another reference to a file, which keeps its inode. -/
theorem Counted.refer (counted : Counted lost flost s) (born : s.born p = true)
    {file : OpenFile} (same : file.inode = (s.ftable f).inode)
    (more : file.ref = (s.ftable f).ref + 1)
    (fresh : file.inode = none → file.type = .FD_NONE ∧ (s.ftable f).ref = 0) :
    Moves lost flost p s ((s.setFile f file).setFhold p f (s.fhold p f + 1)) := by
  have apart : Apart p s ((s.setFile f file).setFhold p f (s.fhold p f + 1)) :=
    file_apart (fun _ _ => rfl) (fun _ other => Function.update_of_ne other ..)
      (fun _ _ _ => same)
  refine ⟨counted.entry born apart (fun i => ?_) (fun g => ?_) ?_ ?_, apart⟩
  · have kept : users (Function.update s.ftable f file) i = users s.ftable i := users_same same
    rw [kept]
    exact counted.refs i
  · exact files_balanced counted (by omega)
  · intro unused
    omega
  · intro none
    rcases fresh none with ⟨closed, unused⟩
    exact ⟨closed, by omega⟩

/-- A file loses one of its references. -/
theorem Counted.share (counted : Counted lost flost s) (born : s.born p = true)
    {file : OpenFile} (same : file.inode = (s.ftable f).inode) (mine : 0 < s.fhold p f)
    (fewer : file.ref + 1 = (s.ftable f).ref) (shared : 0 < file.ref) :
    Moves lost flost p s ((s.setFile f file).setFhold p f (s.fhold p f - 1)) := by
  have apart : Apart p s ((s.setFile f file).setFhold p f (s.fhold p f - 1)) :=
    file_apart (fun _ _ => rfl) (fun _ other => Function.update_of_ne other ..)
      (fun _ _ _ => same)
  refine ⟨counted.entry born apart (fun i => ?_) (fun g => ?_) ?_ ?_, apart⟩
  · have kept : users (Function.update s.ftable f file) i = users s.ftable i := users_same same
    rw [kept]
    exact counted.refs i
  · exact files_balanced counted (by omega)
  · intro unused
    omega
  · intro none
    have few := (counted.fresh f (same ▸ none)).2
    omega

/-- A file that is given up goes with the reference to its inode to the process. -/
theorem Counted.last (counted : Counted lost flost s) (born : s.born p = true)
    {file : OpenFile} {hold : Pid → Fin NINODE → Nat} (mine : 0 < s.fhold p f)
    (one : (s.ftable f).ref = 1) (unused : file.ref = 0) (closed : file.type = .FD_NONE)
    (others : ∀ q, q ≠ p → hold q = s.hold q)
    (goes : ∀ i, ∑ q, hold q i =
      ∑ q, s.hold q i + if (s.ftable f).inode = some i then 1 else 0) :
    Moves lost flost p s
      { (s.setFile f file).setFhold p f (s.fhold p f - 1) with hold := hold } := by
  have apart : Apart p s
      { (s.setFile f file).setFhold p f (s.fhold p f - 1) with hold := hold } := by
    apply file_apart others (fun _ other => Function.update_of_ne other ..)
    intro q other held
    have alone := counted.alone other (Nat.le_of_eq one) mine
    omega
  refine ⟨counted.entry born apart (fun i => ?_) (fun g => ?_) ?_ ?_, apart⟩
  · have count := users_update (s := s) (f := f) (i := i) file
    have before := counted.refs i
    rw [inode_none closed] at count
    simp only [reduceCtorEq, if_false] at count
    rw [goes i]
    omega
  · exact files_balanced counted (by omega)
  · exact fun _ => closed
  · exact fun _ => ⟨closed, by omega⟩

/-- A file that is opened takes over a reference to its inode. -/
theorem Counted.opens (counted : Counted lost flost s) (born : s.born p = true)
    {file : OpenFile} (mine : 0 < s.fhold p f) (closed : (s.ftable f).inode = none)
    (held : 0 < s.hold p i) (inode : file.inode = some i)
    (same : file.ref = (s.ftable f).ref) :
    Moves lost flost p s { s.setFile f file with
      hold := Function.update s.hold p (Function.update (s.hold p) i (s.hold p i - 1)) } := by
  rcases counted.fresh f closed with ⟨_, few⟩
  have used := counted.fhold_le (p := p) (f := f)
  have apart : Apart p s { s.setFile f file with
      hold := Function.update s.hold p (Function.update (s.hold p) i (s.hold p i - 1)) } := by
    apply file_apart (fun _ other => Function.update_of_ne other ..) (fun _ _ => rfl)
    intro q other held
    have alone := counted.alone other few mine
    omega
  refine ⟨counted.entry born apart (fun j => ?_) (fun g => ?_) ?_ ?_, apart⟩
  · have sum := sum_hold (s := s) (p := p) (i := i) (j := j) (s.hold p i - 1)
    have count := users_update (s := s) (f := f) (i := j) file
    have before := counted.refs j
    rw [closed, inode] at count
    by_cases this : j = i
    · subst this
      simp only [reduceCtorEq, if_false, if_true] at sum count
      change s.ref j = lost j + _ + users (Function.update s.ftable f file) j
      omega
    · simp only [reduceCtorEq, if_false, if_neg this, Option.some.injEq, if_neg (Ne.symm this)]
        at sum count
      change s.ref j = lost j + _ + users (Function.update s.ftable f file) j
      omega
  · by_cases this : g = f
    · subst this
      rw [Function.update_self, same]
      exact counted.files g
    · rw [Function.update_of_ne this]
      exact counted.files g
  · intro unused
    omega
  · intro none
    rw [inode] at none
    cases none

/-! ## Actions that move no reference -/

omit [DecidableEq Pid] in
/-- The counts are those of the same tables. -/
theorem Counted.same {t : Tables Pid} (counted : Counted lost flost s) (born : s.born p = true)
    (apart : Apart p s t) (ref : t.ref = s.ref) (inum : t.inum = s.inum)
    (hold : t.hold = s.hold) (fhold : t.fhold = s.fhold)
    (ftable : ∀ f, (t.ftable f).inode = (s.ftable f).inode ∧
      (t.ftable f).ref = (s.ftable f).ref ∧ (t.ftable f).type = (s.ftable f).type) :
    Moves lost flost p s t := by
  have users : ∀ i, users t.ftable i = users s.ftable i := by
    intro i
    unfold PiKernel.Fs.users
    simp only [ftable]
  refine ⟨?_, apart⟩
  constructor
  · intro i
    rw [ref, hold, users]
    exact counted.refs i
  · intro f
    rw [(ftable f).2.1, fhold]
    exact counted.files f
  · intro f
    rw [(ftable f).2.1, (ftable f).2.2]
    exact counted.closed f
  · intro f
    rw [(ftable f).1, (ftable f).2.1, (ftable f).2.2]
    exact counted.fresh f
  · rw [ref, inum]
    exact counted.once
  · exact fun _ => apart.unborn counted born

/-! ## A new process -/

omit [DecidableEq Pid] [Fintype Pid] in
theorem slots_mem {ofile : Fin NOFILE → Option (Fin NFILE)} {fd : Fin NOFILE}
    (used : ofile fd = some f) : 0 < slots ofile f :=
  List.countP_pos_iff.mpr ⟨fd, List.mem_finRange fd, by simpa using used⟩

section Start

variable
    {child : Pid}
    {bufs : Set Nat}
    {op : Bool}

/-- What the child takes over is what its parent holds for it. -/
structure Held.Duplicated (v : Held) : Prop where
  files : ∀ f, slots v.ofile f ≤ v.files f
  refs : ∀ i, v.cwd = some i → 0 < v.refs i
  opened : ∀ fd f, v.ofile fd = some f → v.opened f ≠ none

/-- A reference less for each descriptor, and one for the current directory. -/
def Held.give (v : Held) : Held :=
  { v with
    refs := fun i => v.refs i - if v.cwd = some i then 1 else 0
    files := fun f => v.files f - slots v.ofile f
    opened := fun f => if 0 < v.files f - slots v.ofile f then v.opened f else none }

/-- Both directories and the descriptors of both are counted. -/
theorem Counted.start {v : Held} (counted : Counted lost flost s) (waits : s.born child = false)
    (mine : s.held p bufs op = some v) (both : v.Duplicated) :
    Counted lost flost (s.start p child) := by
  rcases held_some mine with ⟨born, rfl⟩
  rcases counted.unborn child waits with ⟨refs, files, _⟩
  have other : child ≠ p := by
    rintro rfl
    rw [born] at waits
    cases waits
  constructor
  · intro i
    have parent := sum_update (fun hold : Fin NINODE → Nat => hold i) s.hold p
      (fun i => s.hold p i - if s.cwd p = some i then 1 else 0)
    have sum := sum_update (fun hold : Fin NINODE → Nat => hold i)
      (Function.update s.hold p fun i => s.hold p i - if s.cwd p = some i then 1 else 0) child
      (fun i => if s.cwd p = some i then 1 else 0)
    have enough : (if s.cwd p = some i then 1 else 0) ≤ s.hold p i := by
      split
      · next here => exact both.refs i here
      · exact Nat.zero_le _
    have before := counted.refs i
    rw [Function.update_of_ne other, refs i] at sum
    dsimp only [Tables.start] at sum parent ⊢
    omega
  · intro f
    have parent := sum_update (fun fhold : Fin NFILE → Nat => fhold f) s.fhold p
      (fun f => s.fhold p f - s.descriptors p f)
    have sum := sum_update (fun fhold : Fin NFILE → Nat => fhold f)
      (Function.update s.fhold p fun f => s.fhold p f - s.descriptors p f) child
      (s.descriptors p)
    have enough : s.descriptors p f ≤ s.fhold p f := both.files f
    have before := counted.files f
    rw [Function.update_of_ne other, files f] at sum
    dsimp only [Tables.start] at sum parent ⊢
    omega
  · exact counted.closed
  · exact counted.fresh
  · exact counted.once
  · intro q unborn
    have young : q ≠ child := by
      rintro rfl
      simp [Tables.start] at unborn
    have waiting : s.born q = false := by
      simpa [Tables.start, Function.update_of_ne young] using unborn
    have old : q ≠ p := by
      rintro rfl
      rw [born] at waiting
      cases waiting
    simpa [Tables.start, Function.update_of_ne young, Function.update_of_ne old] using
      counted.unborn q waiting

omit [Fintype Pid] in
theorem start_held {q : Pid} (young : q ≠ child) (old : q ≠ p) :
    (s.start p child).held q bufs op = s.held q bufs op := by
  simp only [Tables.held, Tables.start, Function.update_of_ne young, Function.update_of_ne old]

omit [Fintype Pid] in
/-- The parent keeps the rest. -/
theorem start_parent {v : Held} (other : p ≠ child) (mine : s.held p bufs op = some v) :
    (s.start p child).held p bufs op = some v.give := by
  rcases held_some mine with ⟨born, rfl⟩
  simp only [Tables.held, Tables.start, Function.update_of_ne other, Function.update_self, born,
    if_true]
  congr 1
  ext1
  case opened =>
    funext f
    change (if 0 < s.fhold p f - slots (s.ofile p) f then (s.ftable f).inode else none) =
      if 0 < s.fhold p f - slots (s.ofile p) f then
        if 0 < s.fhold p f then (s.ftable f).inode else none
      else
        none
    by_cases kept : 0 < s.fhold p f - slots (s.ofile p) f
    · have positive : 0 < s.fhold p f := Nat.lt_of_lt_of_le kept (Nat.sub_le ..)
      rw [if_pos kept, if_pos kept, if_pos positive]
    · rw [if_neg kept, if_neg kept]
  all_goals rfl

/-- The child rests. -/
theorem start_resting {v : Held} (counted : Counted lost flost s)
    (waits : s.born child = false) (mine : s.held p bufs op = some v) (both : v.Duplicated) :
    ∃ new, (s.start p child).held child ∅ false = some new ∧ new.Resting := by
  rcases held_some mine with ⟨_, rfl⟩
  rcases counted.unborn child waits with ⟨_, _, locks⟩
  refine ⟨_, by simp [Tables.held, Tables.start]; rfl, ?_⟩
  constructor
  · intro i
    rfl
  · exact fun f => rfl
  · intro fd f found
    have opened := both.opened fd f found
    dsimp only at opened
    split at opened
    · change (if 0 < slots (s.ofile p) f then (s.ftable f).inode else none) ≠ none
      rw [if_pos (slots_mem found)]
      exact opened
    · exact absurd rfl opened
  · exact Set.eq_empty_of_forall_notMem locks
  · rfl
  · rfl

end Start

end Counted

end PiKernel.Fs
