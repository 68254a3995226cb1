import PiKernel.Fs.Calls

/-!
# Any number of processes

Processes call the file system in any order, and each step of each call is interleaved with
those of all others.  Wherever a run is, every process meets its duties and every count is
exact; where no call is in progress, the counts are those of the descriptors, of the open
files and of the current directories.
-/

namespace PiKernel.Fs

open PiKernel.Conc

/-- The calls on files, with the arguments that the user gives. -/
inductive Call (Pid : Type) where
  | dup (fd : Nat)
  | read (fd n : Nat)
  | write (fd : Nat) (addr : List UInt8)
  | writev (fd : Nat) (iov : List (List UInt8))
  | close (fd : Nat)
  | fstat (fd : Nat)
  | fstatat (path : List UInt8)
  | openat (dirfd : Int) (path : Option (List UInt8)) (omode : OMode)
  | mkdirat (dirfd : Int) (path : Option (List UInt8)) (mode : Int)
  | mknodat (dirfd : Int) (path : Option (List UInt8)) (major minor : UInt16)
  | chdir (path : Option (List UInt8))
  | exec (path : List UInt8) (reads : Reads)
  | fork (child : Pid)
  | exit

section Calls

variable {Pid : Type}

def Call.program (devsw : Devsw) (sb : Superblock) : Call Pid → Prog (Act Pid) Unit
  | .dup fd => do let _ ← sys_dup fd
  | .read fd n => do let _ ← sys_read devsw fd n
  | .write fd addr => do let _ ← sys_write devsw fd addr
  | .writev fd iov => do let _ ← sys_writev devsw fd iov
  | .close fd => do let _ ← sys_close fd
  | .fstat fd => do let _ ← sys_fstat fd
  | .fstatat path => do let _ ← sys_fstatat devsw path
  | .openat dirfd path omode => do let _ ← sysOpenat devsw sb dirfd path omode
  | .mkdirat dirfd path mode => do let _ ← sysMkdirat devsw sb dirfd path mode
  | .mknodat dirfd path major minor => do let _ ← sysMknodat devsw sb dirfd path major minor
  | .chdir path => do let _ ← sysChdir devsw path
  | .exec path reads => do let _ ← execve devsw path reads
  | .fork child => Fs.fork child
  | .exit => Fs.exit

/-- A process that has been started and has not exited may make any call. -/
def calls (devsw : Devsw) (sb : Superblock) (s : Tables Pid) (p : Pid)
    (program : Prog (Act Pid) Unit) : Prop :=
  s.born p = true ∧ (s.cwd p).isSome ∧ ∃ call : Call Pid, program = call.program devsw sb

end Calls

variable {Pid : Type} [DecidableEq Pid] [Fintype Pid]

section Tasks

variable
    {lost : Fin NINODE → Nat}
    {flost : Fin NFILE → Nat}
    {devsw : Devsw}
    {sb : Superblock}
    {task : Tables Pid → Pid → Prog (Act Pid) Unit → Prop}
    {p : Pid}
    {v : Held}

/-- A call of which the result goes to the user. -/
theorem result_meets {α : Type} {program : Prog (Act Pid) α}
    (meets : Meets lost flost sb task p program v fun _ w => w.Resting) :
    Meets lost flost sb task p (do let _ ← program) v fun _ w => w.Resting := by
  refine .bind (Views.Safe.mono meets ?_)
  exact fun _ _ resting => .ret resting

/-- Every call ends as it began. -/
theorem call_meets (resting : v.Resting) (call : Call Pid) :
    Meets lost flost sb task p (call.program devsw sb) v fun _ w => w.Resting := by
  have fails : ∀ {α : Type} (value : α),
      Meets lost flost sb task p (.ret value) v fun _ w => w.Resting := fun _ => .ret resting
  cases call with
  | dup fd => exact result_meets (sys_dup_meets resting)
  | read fd n => exact result_meets (sys_read_meets resting)
  | write fd addr => exact result_meets (sys_write_meets resting)
  | writev fd iov => exact result_meets (sys_writev_meets resting)
  | close fd => exact result_meets (sys_close_meets resting)
  | fstat fd => exact result_meets (sys_fstat_meets resting)
  | fstatat path => exact result_meets (sys_fstatat_meets resting)
  | openat dirfd path omode =>
      refine result_meets ?_
      cases path with
      | none => exact fails _
      | some path =>
          unfold sysOpenat
          dsimp only
          split
          · exact fails _
          · exact sys_openat_meets resting
  | mkdirat dirfd path mode =>
      refine result_meets ?_
      cases path with
      | none => exact fails _
      | some path =>
          unfold sysMkdirat
          dsimp only
          split
          · exact fails _
          · split
            · exact fails _
            · exact sys_mkdirat_meets resting
  | mknodat dirfd path major minor =>
      refine result_meets ?_
      cases path with
      | none => exact fails _
      | some path =>
          unfold sysMknodat
          dsimp only
          split
          · exact fails _
          · exact sys_mknodat_meets resting
  | chdir path =>
      refine result_meets ?_
      cases path with
      | none =>
          refine .bind (beginOp_meets resting.op resting.locks resting.bufs ?_)
          exact ends_meets resting
      | some path => exact sys_chdir_meets resting
  | exec path reads => exact result_meets (execve_meets resting)
  | fork child => exact fork_meets resting
  | exit => exact exit_meets resting

theorem calls_safe : (duties lost flost sb (calls devsw sb : Tables Pid → _)).TasksSafe := by
  rintro s p program accounted ⟨high, ⟨born, _, call, rfl⟩, rfl⟩
  refine ⟨_, if_pos born, fun resting => ?_⟩
  exact call_meets resting call

end Tasks

/-! ## Runs -/

/-- No call is in progress, and the counts are exact but for some references. -/
structure Still (lost : Fin NINODE → Nat) (flost : Fin NFILE → Nat)
    (config : Config (Low Pid) Pid (Blocks Pid)) : Prop where
  idle : ∀ p, config.prog p = .ret ()
  accounted : Accounted lost flost config.shared
  resting : ∀ p v, config.shared.held p = some v → v.Resting

/-- Where a process is, and what it then holds. -/
structure Orderly (config : Config (Low Pid) Pid (Blocks Pid)) (p : Pid) : Prop where
  idle : config.prog p = .ret () → ∀ v, config.shared.held p = some v → v.Resting
  duty : ∀ {β : Type} (action : Low Pid β) (next : β → Prog (Low Pid) Unit),
    config.prog p = .act action next → ∃ v, config.shared.held p = some v ∧ Allowed action v
  panic : ∀ message, config.prog p = .panic message → message ∉ misuse

section Runs

variable
    {lost : Fin NINODE → Nat}
    {flost : Fin NFILE → Nat}
    {devsw : Devsw}
    {sb : Superblock}
    {initial config : Config (Low Pid) Pid (Blocks Pid)}

theorem Still.explains (still : Still lost flost initial) :
    (duties lost flost sb (calls devsw sb)).Explains initial where
  inv := still.accounted
  safe p v viewed := by
    rw [still.idle p]
    exact still.resting p v viewed
  unborn p _ := still.idle p

theorem Still.reaches (still : Still lost flost initial)
    (run : (blocksSystem sb (calls devsw sb)).Reachable initial config) :
    (duties lost flost sb (calls devsw sb)).Explains config :=
  Views.reachable calls_safe still.explains run

/-- Every call gives back what it takes, and takes only what it may. -/
theorem calls_give_back (still : Still lost flost initial)
    (run : (blocksSystem sb (calls devsw sb)).Reachable initial config) (p : Pid) :
    Orderly config p := by
  have explains := still.reaches run
  constructor
  · exact fun idle v viewed => explains.resting idle viewed
  · exact fun action next current => explains.obligation current
  · exact fun message current => explains.panic current

/-! ## Counts -/

/-- The descriptors of all processes that refer to a file. -/
def descriptorsOf (s : Tables Pid) (f : Fin NFILE) : Nat :=
  ∑ p, if s.born p then slots (s.ofile p) f else 0

/-- The current directories and open files that refer to an inode. -/
def referencesOf (s : Tables Pid) (i : Fin NINODE) : Nat :=
  (∑ p, if s.born p ∧ s.cwd p = some i then 1 else 0) + users s.ftable i

omit [DecidableEq Pid] in
/-- Where every process rests, the counts are those of its descriptors and directories. -/
theorem counts_resting {s : Tables Pid} {bufs : Pid → Set Nat} {op : Pid → Bool}
    (counted : Counted lost flost s)
    (resting : ∀ p v, s.held p (bufs p) (op p) = some v → v.Resting) :
    (∀ f, (s.ftable f).ref = flost f + descriptorsOf s f) ∧
    ∀ i, s.ref i = lost i + referencesOf s i := by
  have mine : ∀ p, s.born p = true →
      (∀ i, s.hold p i = if s.cwd p = some i then 1 else 0) ∧
        ∀ f, s.fhold p f = slots (s.ofile p) f := by
    intro p born
    have rests := resting p _ (if_pos born)
    exact ⟨rests.refs, rests.files⟩
  constructor
  · intro f
    rw [counted.files f, descriptorsOf]
    congr 1
    refine Finset.sum_congr rfl fun p _ => ?_
    by_cases born : s.born p = true
    · rw [if_pos born, (mine p born).2]
    · rw [if_neg born]
      exact (counted.unborn p (by simpa using born)).2.1 f
  · intro i
    rw [counted.refs i, referencesOf, ← Nat.add_assoc]
    congr 2
    refine Finset.sum_congr rfl fun p _ => ?_
    by_cases born : s.born p = true
    · rw [(mine p born).1]
      simp [born]
    · rw [if_neg (fun both => born both.1)]
      exact (counted.unborn p (by simpa using born)).1 i

/-- From one state without calls to another every count changes by what refers to it. -/
theorem references_exact (still : Still lost flost initial)
    (run : (blocksSystem sb (calls devsw sb)).Reachable initial config) :
    ((∀ p, config.prog p = .ret ()) →
      (∀ f, (config.shared.ftable f).ref + descriptorsOf initial.shared.toTables f =
        (initial.shared.ftable f).ref + descriptorsOf config.shared.toTables f) ∧
      ∀ i, config.shared.ref i + referencesOf initial.shared.toTables i =
        initial.shared.ref i + referencesOf config.shared.toTables i) ∧
    (∀ i j, 0 < config.shared.ref i → 0 < config.shared.ref j →
      config.shared.inum i = config.shared.inum j → i = j) ∧
    (∀ f i, (config.shared.ftable f).inode = some i →
      0 < (config.shared.ftable f).ref ∧ 0 < config.shared.ref i) ∧
    ∀ p, config.prog p = .ret () → config.shared.born p = true →
      (∀ i, config.shared.cwd p = some i → 0 < config.shared.ref i) ∧
      ∀ fd f, config.shared.ofile p fd = some f → 0 < (config.shared.ftable f).ref := by
  have explains := still.reaches run
  have counted := explains.inv.counted
  refine ⟨fun idle => ?_, counted.once, fun f i opened => ?_, fun p idle born => ?_⟩
  · have first := counts_resting still.accounted.counted still.resting
    have second := counts_resting counted fun p v viewed => explains.resting (idle p) viewed
    refine ⟨fun f => ?_, fun i => ?_⟩
    · have before := first.1 f
      have after := second.1 f
      omega
    · have before := first.2 i
      have after := second.2 i
      omega
  · exact ⟨counted.open_files opened, counted.open_ref opened⟩
  · have viewed : config.shared.held p = some _ := if_pos born
    have resting := explains.resting idle viewed
    refine ⟨fun i here => counted.refers viewed (resting.here here), fun fd f used => ?_⟩
    exact Nat.lt_of_lt_of_le (resting.file used).1 counted.fhold_le

end Runs

/-! ## Two processes -/

/-- The entry of the root directory. -/
def rootEntry : Fin NINODE := ⟨0, Nat.succ_pos 49⟩

/-- The only file that is open. -/
def rootFile : Fin NFILE := ⟨0, NFILE_pos⟩

/-- The first process, in the root directory, which it has also opened. -/
def firstProcess : Blocks (Fin 2) where
  inum _ := ROOTINO
  ref i := if i = rootEntry then 2 else 0
  valid _ := false
  lock _ := none
  ftable f :=
    if f = rootFile then
      { type := .FD_INODE, ref := 1, readable := true, writable := false, ip := some rootEntry,
        off := 0 }
    else
      { type := .FD_NONE, ref := 0, readable := false, writable := false, ip := none, off := 0 }
  ofile p fd := if p = 0 ∧ fd.val = 0 then some rootFile else none
  cwd p := if p = 0 then some rootEntry else none
  born p := p = 0
  hold p i := if p = 0 ∧ i = rootEntry then 1 else 0
  fhold p f := if p = 0 ∧ f = rootFile then 1 else 0
  frees _ := false
  log := { start := 2, size := 30, outstanding := 0, committing := false,
           lh := { n := 0, block := fun _ => 0 } }
  asleep _ := false
  current _ := none
  finished := []
  view _ := zeroBlock
  holder _ := none
  inode _ := Dinode.fresh 0

theorem still_firstProcess :
    Still (fun _ => 0) (fun _ => 0) ⟨firstProcess, fun _ => .ret ()⟩ where
  idle _ := rfl
  accounted :=
    { counted :=
        { refs := by decide +kernel
          files := by decide
          closed := by decide
          fresh := by decide
          once := by decide
          unborn := by decide }
      bufs := fun _ _ _ held => by cases held
      ops := fun _ _ => rfl }
  resting p v viewed := by
    rcases held_some viewed with ⟨born, rfl⟩
    have first : p = 0 := by simpa [firstProcess] using born
    subst first
    constructor
    · decide
    · decide
    · decide
    · exact Set.eq_empty_of_forall_notMem fun i held => by cases held
    · exact Set.eq_empty_of_forall_notMem fun b held => by cases held
    · rfl

/-- The volume of the two processes. -/
def smallVolume : Superblock where
  size := 1000
  nblocks := 900
  ninodes := 200
  nlog := 30
  logstart := 2
  inodestart := 32
  bmapstart := 58

def noDevsw : Devsw where
  read _ := none
  write _ := none

/-- The first process has started the other one. -/
def twoProcesses : Blocks (Fin 2) :=
  { firstProcess with toTables := firstProcess.toTables.fork 0 1 }

theorem fork_reachable : (blocksSystem smallVolume (calls noDevsw smallVolume)).Reachable
    ⟨firstProcess, fun _ => .ret ()⟩ ⟨twoProcesses, fun _ => .ret ()⟩ := by
  have permitted : (blocksSystem smallVolume (calls noDevsw smallVolume)).task firstProcess 0
      ((Fs.fork 1 : Prog (Act (Fin 2)) Unit).expand (body smallVolume)) :=
    ⟨Fs.fork 1, ⟨rfl, rfl, .fork 1, rfl⟩, rfl⟩
  have used : ∀ fd f, firstProcess.ofile 0 fd = some f → 0 < (firstProcess.ftable f).ref := by
    decide
  have alone : (blocksSystem smallVolume (calls noDevsw smallVolume)).Completes 0
      ((Fs.fork 1).expand (body smallVolume)) firstProcess () twoProcesses :=
    fork_alone rfl rfl used
  exact alone.reachable rfl permitted

theorem calls_give_back_fork : Orderly ⟨twoProcesses, fun _ => .ret ()⟩ 1 :=
  calls_give_back still_firstProcess fork_reachable 1

/-- The file has two descriptors, and the root directory two processes. -/
theorem references_exact_fork :
    (twoProcesses.ftable rootFile).ref + descriptorsOf firstProcess.toTables rootFile =
        (firstProcess.ftable rootFile).ref + descriptorsOf twoProcesses.toTables rootFile ∧
      twoProcesses.ref rootEntry + referencesOf firstProcess.toTables rootEntry =
        firstProcess.ref rootEntry + referencesOf twoProcesses.toTables rootEntry :=
  have exact := (references_exact still_firstProcess fork_reachable).1 fun _ => rfl
  ⟨exact.1 rootFile, exact.2 rootEntry⟩

end PiKernel.Fs
