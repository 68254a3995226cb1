import PiKernel.Logging.Client
import PiKernel.Conc.Alone

/-!
# Crash atomicity of the log

A crash loses everything but the disk.  The disk of a running `commit` is in
one of three shapes: `Settled` on the old contents while the log is being
copied, `Pending` once the header names the logged blocks, and `Settled` on
the new contents once the header is erased.  Each single-block write keeps
the shape or moves on to the next one, and recovery keeps or finishes it.
-/

namespace PiKernel.Logging

open PiKernel.Bytes
open PiKernel.Conc
open PiKernel.Conc.Prog (perform)

variable {Pid : Type} [DecidableEq Pid]

/-! ## The header block -/

namespace LogHeader

variable {lh : LogHeader} {data : Block}

/-- `n` of a header block. -/
def count (data : Block) : Nat :=
  readLE data 0 4

theorem readLE_encodeLoop_other
    {loops off width : Nat}
    (low : off + width ≤ entry 0) :
    readLE
        ((List.range loops).foldl
          (fun data i => writeLE data (entry i) 4 (lh.block i)) data)
        off width =
      readLE data off width := by
  induction loops with
  | zero => rfl
  | succ loops ih =>
      rw [List.range_succ, List.foldl_append, List.foldl_cons, List.foldl_nil]
      rw [readLE_writeLE_disjoint (Or.inl (by simp only [entry] at *; omega)), ih]

theorem readLE_encodeLoop_entry
    {loops i : Nat}
    (room : loops ≤ LOGSIZE) (below : i < loops) :
    readLE
        ((List.range loops).foldl
          (fun data i => writeLE data (entry i) 4 (lh.block i)) data)
        (entry i) 4 =
      lh.block i % 256 ^ 4 := by
  induction loops with
  | zero => omega
  | succ loops ih =>
      rw [List.range_succ, List.foldl_append, List.foldl_cons, List.foldl_nil]
      rcases Nat.lt_succ_iff_lt_or_eq.mp below with earlier | same
      · rw [readLE_writeLE_disjoint (Or.inl (by simp only [entry]; omega))]
        exact ih (by omega) earlier
      · subst same
        apply readLE_writeLE_same
        simp only [entry, LOGSIZE, MAXOPBLOCKS, BSIZE] at *
        omega

theorem count_encode (room : lh.n ≤ LOGSIZE) :
    count (lh.encode data) = lh.n := by
  rw [count, encode, readLE_encodeLoop_other (by simp [entry]),
    readLE_writeLE_same (by simp [BSIZE])]
  apply Nat.mod_eq_of_lt
  simp only [LOGSIZE, MAXOPBLOCKS] at room
  omega

theorem decode_encode_n (room : lh.n ≤ LOGSIZE) :
    (decode (lh.encode data)).n = lh.n := by
  have raw : readLE (lh.encode data) 0 4 = lh.n := count_encode room
  simp only [LOGSIZE, MAXOPBLOCKS] at room
  rw [decode, raw, if_pos (by omega)]

theorem decode_encode_block {i : Nat}
    (room : lh.n ≤ LOGSIZE) (below : i < lh.n) (small : lh.block i < 2 ^ 32) :
    (decode (lh.encode data)).block i = lh.block i := by
  rw [decode, encode]
  simp only
  rw [readLE_encodeLoop_entry room below]
  exact Nat.mod_eq_of_lt (by omega)

theorem decode_n_of_count_zero (zero : count data = 0) :
    (decode data).n = 0 := by
  have raw : readLE data 0 4 = 0 := zero
  simp [decode, raw]

end LogHeader

open LogHeader

/-! ## Shapes of the disk -/

/-- What `log_write` leaves in `struct log` for `commit`. -/
structure Log.Loggable (log : Log) : Prop where
  room : log.lh.n ≤ LOGSIZE
  slots : log.lh.n + 1 ≤ log.size
  distinct : ∀ i j, i < log.lh.n → j < log.lh.n →
    log.lh.block i = log.lh.block j → i = j
  small : ∀ i, i < log.lh.n → log.lh.block i < 2 ^ 32
  home : ∀ i, i < log.lh.n → ¬ log.Area (log.lh.block i)

/-- Nothing to install: outside the log area the disk holds `new`. -/
structure Settled (log : Log) (new disk : Nat → Block) : Prop where
  count : LogHeader.count (disk log.start) = 0
  rest : ∀ b, ¬ log.Area b → disk b = new b

/-- Committed: the slots hold `new` for every logged block. -/
structure Pending (log : Log) (new disk : Nat → Block) : Prop where
  count : (decode (disk log.start)).n = log.lh.n
  entry : ∀ i, i < log.lh.n →
    (decode (disk log.start)).block i = log.lh.block i
  slot : ∀ i, i < log.lh.n → disk (log.start + i + 1) = new (log.lh.block i)
  rest : ∀ b, ¬ log.Area b → b ∉ log.lh.blocks → disk b = new b

variable {log : Log} {new disk : Nat → Block} {i : Nat}

theorem Log.Loggable.start_ne (ok : log.Loggable) (below : i < log.lh.n) :
    log.start ≠ log.lh.block i := by
  intro equal
  have slots := ok.slots
  exact ok.home i below (by rw [← equal]; exact ⟨le_refl _, by omega⟩)

theorem Log.Loggable.slot_ne (ok : log.Loggable) {j : Nat}
    (below : i < log.lh.n) (slot : j < log.lh.n) :
    log.start + j + 1 ≠ log.lh.block i := by
  intro equal
  have slots := ok.slots
  exact ok.home i below (by rw [← equal]; exact ⟨by omega, by omega⟩)

/-- Writing a slot does not unsettle the disk. -/
theorem Settled.slot (settled : Settled log new disk) {data : Block}
    (room : i + 1 < log.size) :
    Settled log new (Function.update disk (log.start + i + 1) data) where
  count := by
    rw [Function.update_of_ne (by omega)]
    exact settled.count
  rest := by
    intro b outside
    have other : b ≠ log.start + i + 1 := by
      rintro rfl
      exact outside ⟨by omega, by omega⟩
    rw [Function.update_of_ne other]
    exact settled.rest b outside

/-- Installing one logged block keeps a committed transaction committed. -/
theorem Pending.install (ok : log.Loggable)
    (pending : Pending log new disk) (below : i < log.lh.n) :
    Pending log new
      (Function.update disk (log.lh.block i) (new (log.lh.block i))) where
  count := by
    rw [Function.update_of_ne (ok.start_ne below)]
    exact pending.count
  entry := by
    rw [Function.update_of_ne (ok.start_ne below)]
    exact pending.entry
  slot := by
    intro j slot
    rw [Function.update_of_ne (ok.slot_ne below slot)]
    exact pending.slot j slot
  rest := by
    intro b outside unlogged
    have other : b ≠ log.lh.block i := by
      rintro rfl
      exact unlogged (block_mem_blocks below)
    rw [Function.update_of_ne other]
    exact pending.rest b outside unlogged

/-- Once every logged block is installed nothing outside the log is old. -/
theorem Pending.installed
    (pending : Pending log new disk)
    (copied : ∀ i, i < log.lh.n → disk (log.lh.block i) = new (log.lh.block i))
    (b : Nat) (outside : ¬ log.Area b) :
    disk b = new b := by
  by_cases logged : b ∈ log.lh.blocks
  · rcases mem_blocks.mp logged with ⟨i, below, rfl⟩
    exact copied i below
  · exact pending.rest b outside logged

/-- Installing a block again changes nothing. -/
theorem Settled.install (ok : log.Loggable)
    (settled : Settled log new disk) (below : i < log.lh.n) :
    Settled log new
      (Function.update disk (log.lh.block i) (new (log.lh.block i))) where
  count := by
    rw [Function.update_of_ne (ok.start_ne below)]
    exact settled.count
  rest := by
    intro b outside
    by_cases same : b = log.lh.block i
    · subst same
      rw [Function.update_self]
    · rw [Function.update_of_ne same]
      exact settled.rest b outside

/-- Writing the header commits a transaction whose slots are filled. -/
theorem Settled.commit {old : Nat → Block} (ok : log.Loggable)
    (settled : Settled log old disk)
    (slot : ∀ i, i < log.lh.n → disk (log.start + i + 1) = new (log.lh.block i))
    (agree : ∀ b, b ∉ log.lh.blocks → new b = old b) (data : Block) :
    Pending log new
      (Function.update disk log.start (log.lh.encode data)) where
  count := by
    rw [Function.update_self]
    exact decode_encode_n ok.room
  entry := by
    intro i below
    rw [Function.update_self]
    exact decode_encode_block ok.room below (ok.small i below)
  slot := by
    intro i below
    rw [Function.update_of_ne (by omega)]
    exact slot i below
  rest := by
    intro b outside unlogged
    have other : b ≠ log.start := by
      rintro rfl
      have slots := ok.slots
      exact outside ⟨le_refl _, by omega⟩
    rw [Function.update_of_ne other, settled.rest b outside, agree b unlogged]

/-- Erasing the header settles the disk on what lies outside the log. -/
theorem settled_erase {data : Block} (nonempty : 0 < log.size)
    (zero : LogHeader.count data = 0)
    (rest : ∀ b, ¬ log.Area b → disk b = new b) :
    Settled log new (Function.update disk log.start data) where
  count := by
    rw [Function.update_self]
    exact zero
  rest := by
    intro b outside
    have other : b ≠ log.start := by
      rintro rfl
      exact outside ⟨le_refl _, by omega⟩
    rw [Function.update_of_ne other]
    exact rest b outside

/-! ## One process running alone -/

/-- The device with no process but one. -/
def alone (Pid : Type) [DecidableEq Pid] : System Act Pid (State Pid) where
  exec := exec
  task _ _ _ := False

/-- New content for a block in the cache and on disk. -/
def State.writeBlock (t : State Pid) (b : Nat) (data : Block) : State Pid :=
  { t with
    view := Function.update t.view b data
    disk := Function.update t.disk b data
    dirty := Function.update t.dirty b false
    written := b :: t.written }

variable {p : Pid} (keep : (Nat → Block) → List Nat → Prop) {t : State Pid}

omit [DecidableEq Pid] in
/-- Taking two buffers and releasing both leaves the holders as they were. -/
theorem hold_release {holder : Nat → Option Pid} {a b first second : Nat}
    (freeA : holder a = none) (freeB : holder b = none)
    (order : first = a ∧ second = b ∨ first = b ∧ second = a) :
    Function.update
        (Function.update
          (Function.update (Function.update holder a (some p)) b (some p))
          first none)
        second none =
      holder := by
  funext x
  simp only [Function.update_apply]
  grind

theorem writeHead_runs (t : State Pid)
    (idle : ∀ b, t.holder b = none)
    (here : keep t.disk t.written)
    (after :
      keep
        (Function.update t.disk t.log.start
          (t.log.lh.encode (t.view t.log.start)))
        (t.log.start :: t.written)) :
    (alone Pid).Runs p (fun s => keep s.disk s.written)
      (fun _ t' =>
        t' = t.writeBlock t.log.start (t.log.lh.encode (t.view t.log.start)))
      writeHead t := by
  unfold writeHead
  simp [System.Runs, alone, exec, perform, idle, here, after, State.writeBlock]

/-- `log.lh.n = 0; write_head();` erases the transaction from the log. -/
theorem eraseHead_runs
    (idle : ∀ b, t.holder b = none)
    (here : keep t.disk t.written)
    (after : ∀ data, LogHeader.count data = 0 →
      keep (Function.update t.disk t.log.start data) (t.log.start :: t.written)) :
    (alone Pid).Runs p (fun s => keep s.disk s.written)
      (fun _ t' => ∃ data, LogHeader.count data = 0 ∧
        t'.disk = Function.update t.disk t.log.start data)
      (do
        perform .clearHeader
        writeHead)
      t := by
  rw [Prog.perform_bind]
  refine ⟨here, _, _, rfl, ?_⟩
  have zero :
      LogHeader.count
        (encode { t.log.lh with n := 0 } (t.view t.log.start)) = 0 :=
    count_encode (Nat.zero_le _)
  apply System.Runs.mono
    (writeHead_runs keep { t with log := { t.log with lh := { t.log.lh with n := 0 } } }
      idle here (after _ zero))
  rintro _ _ rfl
  exact ⟨_, zero, rfl⟩

/-- One iteration of `write_log`. -/
theorem copyToLog_runs {toBuf fromBuf : Nat}
    (idle : ∀ b, t.holder b = none) (distinct : fromBuf ≠ toBuf)
    (here : keep t.disk t.written)
    (after :
      keep (Function.update t.disk toBuf (t.view fromBuf)) (toBuf :: t.written)) :
    (alone Pid).Runs p (fun s => keep s.disk s.written)
      (fun _ t' => t' = t.writeBlock toBuf (t.view fromBuf))
      (do
        perform (.bread toBuf)
        perform (.bread fromBuf)
        let data ← perform (.load fromBuf)
        perform (.store toBuf data)
        perform (.bwrite toBuf)
        perform (.brelse fromBuf)
        perform (.brelse toBuf))
      t := by
  simp [System.Runs, alone, exec, perform, idle, distinct, here, after,
    State.writeBlock, -Function.update_idem]
  exact hold_release (idle _) (idle _) (Or.inr ⟨rfl, rfl⟩)

/-- One iteration of `install_trans`. -/
theorem copyHome_runs {lbuf dbuf : Nat}
    (idle : ∀ b, t.holder b = none) (distinct : dbuf ≠ lbuf)
    (here : keep t.disk t.written)
    (after :
      keep (Function.update t.disk dbuf (t.view lbuf)) (dbuf :: t.written)) :
    (alone Pid).Runs p (fun s => keep s.disk s.written)
      (fun _ t' => t' = t.writeBlock dbuf (t.view lbuf))
      (do
        perform (.bread lbuf)
        perform (.bread dbuf)
        let data ← perform (.load lbuf)
        perform (.store dbuf data)
        perform (.bwrite dbuf)
        perform (.brelse lbuf)
        perform (.brelse dbuf))
      t := by
  simp [System.Runs, alone, exec, perform, idle, distinct, here, after,
    State.writeBlock]
  exact hold_release (idle _) (idle _) (Or.inl ⟨rfl, rfl⟩)

/-- A position of a loop over `List.range n` is the number of earlier ones. -/
theorem range_split {n item : Nat} {before after : List Nat}
    (split : List.range n = before ++ item :: after) :
    item = before.length ∧ item < n := by
  have lengths := congrArg List.length split
  simp only [List.length_range, List.length_append, List.length_cons] at lengths
  have here := congrArg (fun items => items[before.length]?) split
  simp only [List.getElem?_append_right (le_refl _), Nat.sub_self,
    List.getElem?_cons_zero] at here
  rw [List.getElem?_range (by omega)] at here
  have same := Option.some.inj here
  omega

/-! ## The loops -/

/-- `install_trans` after it has copied the first `done` blocks. -/
structure Installing (log : Log) (new : Nat → Block) (done : Nat)
    (t : State Pid) : Prop where
  idle : ∀ b, t.holder b = none
  begins : t.log.start = log.start
  count : t.log.lh.n = log.lh.n
  block : ∀ i, i < log.lh.n → t.log.lh.block i = log.lh.block i
  slot : ∀ i, i < log.lh.n →
    t.view (log.start + i + 1) = new (log.lh.block i)
  copied : ∀ i, i < done → t.disk (log.lh.block i) = new (log.lh.block i)

omit [DecidableEq Pid] in
theorem Installing.step (ok : log.Loggable) {done : Nat}
    (installing : Installing log new done t) (below : done < log.lh.n) :
    Installing log new (done + 1)
      (t.writeBlock (t.log.lh.block done) (t.view (t.log.start + done + 1))) where
  idle := installing.idle
  begins := installing.begins
  count := installing.count
  block := installing.block
  slot := by
    intro j slot
    simp only [State.writeBlock, installing.block done below]
    rw [Function.update_of_ne (ok.slot_ne below slot)]
    exact installing.slot j slot
  copied := by
    intro j copied
    simp only [State.writeBlock, installing.block done below, installing.begins,
      installing.slot done below]
    by_cases same : j = done
    · subst same
      rw [Function.update_self]
    · have other : log.lh.block j ≠ log.lh.block done := fun equal =>
        same (ok.distinct j done (by omega) below equal)
      rw [Function.update_of_ne other]
      exact installing.copied j (by omega)

theorem installTrans_runs (ok : log.Loggable)
    (closed : ∀ disk written i, i < log.lh.n → keep disk written →
      keep (Function.update disk (log.lh.block i) (new (log.lh.block i)))
        (log.lh.block i :: written))
    (begin' : Installing log new 0 t) (here : keep t.disk t.written) :
    (alone Pid).Runs p (fun s => keep s.disk s.written)
      (fun _ t' => Installing log new log.lh.n t' ∧ keep t'.disk t'.written)
      installTrans t := by
  unfold installTrans
  rw [Prog.perform_bind]
  refine ⟨here, _, _, rfl, ?_⟩
  beta_reduce
  rw [begin'.count]
  apply System.Runs.forM
    (fun done s => Installing log new done.length s ∧ keep s.disk s.written)
  · exact fun _ holds => holds.2
  · rintro before item after s split ⟨installing, kept⟩
    rcases range_split split with ⟨rfl, below⟩
    rw [Prog.perform_bind]
    refine ⟨kept, _, _, rfl, ?_⟩
    have source := installing.slot _ below
    have target := installing.block _ below
    apply (copyHome_runs keep installing.idle _ kept _).mono
    · rintro _ _ rfl
      rw [List.length_append, List.length_singleton]
      refine ⟨installing.step ok below, ?_⟩
      simp only [State.writeBlock, installing.begins, source, target]
      exact closed _ _ _ below kept
    · rw [installing.begins, target]
      exact (ok.slot_ne below below).symm
    · simp only [installing.begins, source, target]
      exact closed _ _ _ below kept
  · rintro s ⟨installing, kept⟩
    rw [List.length_range] at installing
    exact ⟨installing, kept⟩
  · exact ⟨begin', here⟩

/-- `write_log` after it has copied the first `done` blocks. -/
structure Copying (s : State Pid) (done : Nat) (t : State Pid) : Prop where
  idle : ∀ b, t.holder b = none
  same : t.log = s.log
  home : ∀ i, i < s.log.lh.n →
    t.view (s.log.lh.block i) = s.view (s.log.lh.block i)
  slot : ∀ i, i < done →
    t.view (s.log.start + i + 1) = s.view (s.log.lh.block i) ∧
      t.disk (s.log.start + i + 1) = s.view (s.log.lh.block i)
  settled : Settled s.log s.disk t.disk
  unwritten : s.log.start ∉ t.written

variable {s : State Pid}

omit [DecidableEq Pid] in
theorem Copying.step (ok : s.log.Loggable) {done : Nat}
    (copying : Copying s done t) (below : done < s.log.lh.n) :
    Copying s (done + 1)
      (t.writeBlock (s.log.start + done + 1) (s.view (s.log.lh.block done))) where
  idle := copying.idle
  same := copying.same
  home := by
    intro j home
    simp only [State.writeBlock]
    rw [Function.update_of_ne (ok.slot_ne home below).symm]
    exact copying.home j home
  slot := by
    intro j copied
    simp only [State.writeBlock]
    by_cases same : j = done
    · subst same
      simp
    · rw [Function.update_of_ne (by omega), Function.update_of_ne (by omega)]
      exact copying.slot j (by omega)
  settled := copying.settled.slot (by have slots := ok.slots; omega)
  unwritten := by
    simp only [State.writeBlock, List.mem_cons, not_or]
    exact ⟨by omega, copying.unwritten⟩

theorem writeLog_runs (ok : s.log.Loggable)
    (closed : ∀ t : State Pid, ∀ done, Copying s done t → keep t.disk t.written)
    (begin' : Copying s 0 t) :
    (alone Pid).Runs p (fun s => keep s.disk s.written)
      (fun _ t' => Copying s s.log.lh.n t') writeLog t := by
  unfold writeLog
  rw [Prog.perform_bind]
  refine ⟨closed t 0 begin', _, _, rfl, ?_⟩
  rw [begin'.same]
  apply System.Runs.forM (fun done s' => Copying s done.length s')
  · exact fun s' holds => closed s' _ holds
  · intro before item after s' split copying
    rcases range_split split with ⟨rfl, below⟩
    rw [Prog.perform_bind]
    refine ⟨closed s' _ copying, _, _, rfl, ?_⟩
    rw [copying.same]
    have next := copying.step ok below
    have source := copying.home _ below
    apply (copyToLog_runs keep copying.idle _ (closed s' _ copying) _).mono
    · rintro _ _ rfl
      rw [List.length_append, List.length_singleton, source]
      exact next
    · exact (ok.slot_ne below below).symm
    · rw [source]
      exact closed _ _ next
  · intro s' copying
    rw [List.length_range] at copying
    exact copying
  · exact begin'

/-! ## Recovery -/

/-- The machine after a reboot: only the disk and the superblock are left. -/
def reboot (log : Log) (disk : Nat → Block) : State Pid where
  view := disk
  disk := disk
  holder _ := none
  log :=
    { start := log.start
      size := log.size
      outstanding := 0
      committing := false
      lh := { n := 0, block := fun _ => 0 } }
  asleep _ := false
  dirty _ := false
  current _ := none
  finished := []
  logged _ := none
  written := []

theorem readHead_runs
    (idle : ∀ b, t.holder b = none) (here : keep t.disk t.written) :
    (alone Pid).Runs p (fun s => keep s.disk s.written)
      (fun _ t' =>
        t' =
          { t with
            log :=
              { t.log with
                lh := t.log.lh.assign (decode (t.view t.log.start)) } })
      readHead t := by
  unfold readHead
  simp [System.Runs, alone, exec, perform, idle, here]

/--
Recovery from a disk whose header is `lh` and whose slots hold `new`: every
block named by the header is installed, then the header is erased.
-/
theorem recoverFromLog_runs {lh : LogHeader}
    (ok : Log.Loggable { log with lh := lh })
    (found : (decode (disk log.start)).n = lh.n)
    (entry : ∀ i, i < lh.n → (decode (disk log.start)).block i = lh.block i)
    (slot : ∀ i, i < lh.n → disk (log.start + i + 1) = new (lh.block i))
    (closed : ∀ disk written i, i < lh.n → keep disk written →
      keep (Function.update disk (lh.block i) (new (lh.block i)))
        (lh.block i :: written))
    (erase : ∀ disk written data, LogHeader.count data = 0 →
      (∀ i, i < lh.n → disk (lh.block i) = new (lh.block i)) →
      keep disk written →
        Settled log new (Function.update disk log.start data) ∧
          keep (Function.update disk log.start data) (log.start :: written))
    (here : keep disk []) :
    (alone Pid).Runs p (fun s => keep s.disk s.written)
      (fun _ t' => Settled log new t'.disk)
      recoverFromLog (reboot log disk) := by
  unfold recoverFromLog
  apply System.Runs.bind
  apply (readHead_runs keep (fun _ => rfl) here).mono
  rintro _ _ rfl
  apply System.Runs.bind
  apply (installTrans_runs keep ok closed _ here).mono
  · rintro _ t ⟨installing, kept⟩
    have erased := fun data zero =>
      erase t.disk t.written data zero installing.copied kept
    apply (eraseHead_runs keep installing.idle kept _).mono
    · rintro _ t' ⟨data, zero, written⟩
      rw [written, installing.begins]
      exact (erased data zero).1
    · intro data zero
      rw [installing.begins]
      exact (erased data zero).2
  · exact
      { idle := fun _ => rfl
        begins := rfl
        count := found
        block := by
          intro i below
          simp only [LogHeader.assign, reboot, found, below, if_true]
          exact entry i below
        slot := slot
        copied := fun i absurd' => absurd absurd' (Nat.not_lt_zero i) }

/-- Recovery keeps a settled disk settled at every write. -/
theorem recoverFromLog_settled (nonempty : 0 < log.size)
    (settled : Settled log new disk) :
    (alone Pid).Runs p (fun s => Settled log new s.disk)
      (fun _ t' => Settled log new t'.disk)
      recoverFromLog (reboot log disk) := by
  let empty : LogHeader := { n := 0, block := fun _ => 0 }
  have ok : Log.Loggable { log with lh := empty } := by
    constructor <;> simp [empty]
    exact nonempty
  apply recoverFromLog_runs (fun disk _ => Settled log new disk) ok
  · exact decode_n_of_count_zero settled.count
  · exact fun i below => absurd below (Nat.not_lt_zero i)
  · exact fun i below => absurd below (Nat.not_lt_zero i)
  · exact fun _ _ i below _ => absurd below (Nat.not_lt_zero i)
  · intro disk written data zero _ kept
    exact
      ⟨settled_erase nonempty zero kept.rest,
        settled_erase nonempty zero kept.rest⟩
  · exact settled

/-- Recovery installs a committed transaction. -/
theorem recoverFromLog_pending (ok : log.Loggable)
    (pending : Pending log new disk) :
    (alone Pid).Runs p
      (fun s => Pending log new s.disk ∨ Settled log new s.disk)
      (fun _ t' => Settled log new t'.disk)
      recoverFromLog (reboot log disk) := by
  have nonempty : 0 < log.size := by
    have slots := ok.slots
    omega
  have same : Log.Loggable { log with lh := log.lh } := ok
  apply recoverFromLog_runs
    (fun disk _ => Pending log new disk ∨ Settled log new disk)
    same pending.count pending.entry pending.slot
  · rintro disk written i below (still | settled)
    · exact Or.inl (still.install ok below)
    · exact Or.inr (settled.install ok below)
  · rintro disk written data zero copied (still | settled)
    · have done := settled_erase nonempty zero (still.installed copied)
      exact ⟨done, Or.inr done⟩
    · have done := settled_erase nonempty zero settled.rest
      exact ⟨done, Or.inr done⟩
  · exact Or.inl pending

/-! ## Commit -/

/-- The home contents after the transaction of `s.log` is installed. -/
def State.installed (s : State Pid) (b : Nat) : Block :=
  if b ∈ s.log.lh.blocks then s.view b else s.disk b

omit [DecidableEq Pid] in
theorem State.installed_block {i : Nat} (below : i < s.log.lh.n) :
    s.installed (s.log.lh.block i) = s.view (s.log.lh.block i) :=
  if_pos (block_mem_blocks below)

/-- The disk at any point of `commit`. -/
def Committing (s : State Pid) (disk : Nat → Block) (written : List Nat) : Prop :=
  Settled s.log s.disk disk ∧ s.log.start ∉ written ∨
    Pending s.log s.installed disk ∨ Settled s.log s.installed disk

/-- The part of `commit` after the first `write_head`. -/
theorem finishCommit_runs (ok : log.Loggable)
    (begin' : Installing log new 0 t)
    (pending : Pending log new t.disk) :
    (alone Pid).Runs p
      (fun t => Pending log new t.disk ∨ Settled log new t.disk)
      (fun _ t' => Settled log new t'.disk)
      (do
        installTrans
        perform .clearHeader
        writeHead)
      t := by
  have nonempty : 0 < log.size := by
    have slots := ok.slots
    omega
  apply System.Runs.bind
  apply System.Runs.mono
    (installTrans_runs
      (fun disk _ => Pending log new disk ∨ Settled log new disk)
      ok _ begin' (Or.inl pending))
  · rintro _ t ⟨installing, kept⟩
    have rest : ∀ b, ¬ log.Area b → t.disk b = new b := by
      rcases kept with pending | settled
      · exact pending.installed installing.copied
      · exact settled.rest
    have erased : ∀ data, LogHeader.count data = 0 →
        Settled log new (Function.update t.disk t.log.start data) := by
      intro data zero
      rw [installing.begins]
      exact settled_erase nonempty zero rest
    apply (eraseHead_runs
      (fun disk _ => Pending log new disk ∨ Settled log new disk)
      installing.idle kept fun data zero => Or.inr (erased data zero)).mono
    rintro _ t' ⟨data, zero, written⟩
    rw [written]
    exact erased data zero
  · rintro disk _ i below (still | settled)
    · exact Or.inl (still.install ok below)
    · exact Or.inr (settled.install ok below)

/-- `commit` keeps the disk recoverable at every write, and installs the log. -/
theorem commit_runs (ok : s.log.Loggable)
    (idle : ∀ b, s.holder b = none)
    (fresh : s.written = [])
    (clean : LogHeader.count (s.disk s.log.start) = 0) :
    (alone Pid).Runs p (fun t => Committing s t.disk t.written)
      (fun _ t' => Settled s.log s.installed t'.disk) commit s := by
  have settled : Settled s.log s.disk s.disk := ⟨clean, fun _ _ => rfl⟩
  have start : Committing s s.disk s.written :=
    Or.inl ⟨settled, by simp [fresh]⟩
  unfold commit
  rw [Prog.perform_bind]
  refine ⟨start, _, _, rfl, ?_⟩
  beta_reduce
  split
  case isFalse empty =>
    refine ⟨start, clean, fun b _ => ?_⟩
    have none' : s.log.lh.blocks = [] := by
      have zero : s.log.lh.n = 0 := by omega
      simp [LogHeader.blocks, zero]
    simp [State.installed, none']
  case isTrue some' =>
    have begin' : Copying s 0 s :=
      { idle := idle
        same := rfl
        home := fun _ _ => rfl
        slot := fun i none' => absurd none' (Nat.not_lt_zero i)
        settled := settled
        unwritten := by simp [fresh] }
    apply System.Runs.bind
    apply (writeLog_runs (Committing s) ok
      (fun t _ copying => Or.inl ⟨copying.settled, copying.unwritten⟩)
      begin').mono
    intro _ t copied
    have pending : Pending s.log s.installed
        (Function.update t.disk t.log.start
          (t.log.lh.encode (t.view t.log.start))) := by
      rw [copied.same]
      apply copied.settled.commit ok
      · intro i below
        rw [State.installed_block below]
        exact (copied.slot i below).2
      · exact fun b unlogged => if_neg unlogged
    apply System.Runs.bind
    apply (writeHead_runs (Committing s) _ copied.idle
      (Or.inl ⟨copied.settled, copied.unwritten⟩)
      (Or.inr (Or.inl pending))).mono
    rintro _ _ rfl
    apply System.Runs.weaken (finishCommit_runs ok _ pending)
    · exact fun t committed => Or.inr committed
    · exact
        { idle := copied.idle
          begins := by simp [State.writeBlock, copied.same]
          count := by simp [State.writeBlock, copied.same]
          block := by simp [State.writeBlock, copied.same]
          slot := by
            intro i below
            simp only [State.writeBlock, copied.same]
            rw [Function.update_of_ne (by omega), State.installed_block below]
            exact (copied.slot i below).1
          copied := fun i none' => absurd none' (Nat.not_lt_zero i) }

/-! ## Crashes -/

/--
`Recovers p log disk disk'`: starting from `disk`, recovery crashes any number
of times at any of its writes, then completes once and leaves `disk'`.
-/
inductive Recovers (p : Pid) (log : Log) :
    (Nat → Block) → (Nat → Block) → Prop where
  | complete {disk : Nat → Block} {final : State Pid}
      (completes :
        (alone Pid).Completes p recoverFromLog (reboot log disk) () final) :
      Recovers p log disk final.disk
  | crash {disk disk' : Nat → Block} {rest : Prog Act Unit} {crashed : State Pid}
      (visits :
        (alone Pid).Visits p recoverFromLog (reboot log disk) rest crashed)
      (later : Recovers p log crashed.disk disk') :
      Recovers p log disk disk'

theorem Recovers.settled {disk' : Nat → Block} (nonempty : 0 < log.size)
    (recovers : Recovers p log disk disk')
    (settled : Settled log new disk) :
    Settled log new disk' := by
  induction recovers with
  | complete completes =>
      exact (recoverFromLog_settled nonempty settled).post_of_completes completes
  | crash visits _ ih =>
      exact ih ((recoverFromLog_settled nonempty settled).visits visits).here

theorem Recovers.pending {disk' : Nat → Block} (ok : log.Loggable)
    (recovers : Recovers p log disk disk')
    (committed : Pending log new disk ∨ Settled log new disk) :
    Settled log new disk' := by
  have nonempty : 0 < log.size := by
    have slots := ok.slots
    omega
  induction recovers with
  | complete completes =>
      rcases committed with pending | settled
      · exact (recoverFromLog_pending ok pending).post_of_completes completes
      · exact (recoverFromLog_settled nonempty settled).post_of_completes completes
  | crash visits _ ih =>
      rcases committed with pending | settled
      · exact ih ((recoverFromLog_pending ok pending).visits visits).here
      · exact
          ih (Or.inr ((recoverFromLog_settled nonempty settled).visits visits).here)

/-- Recovery from a disk that a crash can leave always completes. -/
theorem recovers_exists (nonempty : 0 < log.size)
    (settled : Settled log new disk) :
    ∃ disk', Recovers p log disk disk' := by
  rcases (recoverFromLog_settled (p := p) nonempty settled).completes with
    ⟨_, final, completes⟩
  exact ⟨final.disk, .complete completes⟩

/--
Crash atomicity.  `commit` starts with a clean header and is cut short after
any of its steps; recovery may crash again at any of its own.  Once one
recovery completes the header is erased, and either all logged blocks have
their new contents, which is certain once the header was written, or all have
their old contents.  Nothing else outside the log area changes.
-/
theorem commit_crash_atomic (s : State Pid) (ok : s.log.Loggable)
    (idle : ∀ b, s.holder b = none)
    (fresh : s.written = [])
    (clean : LogHeader.count (s.disk s.log.start) = 0)
    {rest : Prog Act Unit} {crashed : State Pid}
    (crash : (alone Pid).Visits p commit s rest crashed)
    {disk' : Nat → Block}
    (recovers : Recovers p s.log crashed.disk disk') :
    LogHeader.count (disk' s.log.start) = 0 ∧
      ((∀ b ∈ s.log.lh.blocks, disk' b = s.view b) ∨
        (∀ b ∈ s.log.lh.blocks, disk' b = s.disk b)) ∧
      (s.log.start ∈ crashed.written →
        ∀ b ∈ s.log.lh.blocks, disk' b = s.view b) ∧
      ∀ b, ¬ s.log.Area b → b ∉ s.log.lh.blocks → disk' b = s.disk b := by
  have nonempty : 0 < s.log.size := by
    have slots := ok.slots
    omega
  have outside : ∀ b ∈ s.log.lh.blocks, ¬ s.log.Area b := by
    intro b logged
    rcases mem_blocks.mp logged with ⟨i, below, rfl⟩
    exact ok.home i below
  rcases ((commit_runs (p := p) ok idle fresh clean).visits crash).here with
    ⟨old, unwritten⟩ | committed
  · have final := recovers.settled nonempty old
    refine ⟨final.count, Or.inr fun b logged => ?_, fun written => ?_, ?_⟩
    · exact final.rest b (outside b logged)
    · exact absurd written unwritten
    · exact fun b outside _ => final.rest b outside
  · have final := recovers.pending ok committed
    have installed : ∀ b ∈ s.log.lh.blocks, disk' b = s.view b := by
      intro b logged
      rw [final.rest b (outside b logged), State.installed, if_pos logged]
    refine ⟨final.count, Or.inl installed, fun _ => installed, ?_⟩
    intro b outside unlogged
    rw [final.rest b outside, State.installed, if_neg unlogged]

/-- Block 40 is logged with a content that differs from the one on disk. -/
def oneBlockLogged : State Unit :=
  { reboot
      { start := 2, size := 30, outstanding := 0, committing := false
        lh := { n := 0, block := fun _ => 0 } }
      (fun _ _ => 0) with
    view := fun _ _ => 1
    log :=
      { start := 2, size := 30, outstanding := 0, committing := true
        lh := { n := 1, block := fun _ => 40 } } }

/-- A crash after the last write of `commit`, then one recovery: the new content is there. -/
theorem commit_crash_atomic_oneBlockLogged :
    ∃ crashed disk',
      (alone Unit).Visits () commit oneBlockLogged (.ret ()) crashed ∧
        crashed.written = [2, 40, 2, 3] ∧
        Recovers () oneBlockLogged.log crashed.disk disk' ∧
        LogHeader.count (disk' 2) = 0 ∧ disk' 40 = oneBlockLogged.view 40 ∧
        disk' 40 ≠ oneBlockLogged.disk 40 := by
  have ok : oneBlockLogged.log.Loggable := by
    constructor <;> simp [oneBlockLogged, Log.Area, LOGSIZE, MAXOPBLOCKS]
  have clean : LogHeader.count
      (oneBlockLogged.disk oneBlockLogged.log.start) = 0 := by decide
  have ends : ((alone Unit).run () commit oneBlockLogged).map
      (fun result => result.2.written) = some [2, 40, 2, 3] := by decide
  obtain ⟨⟨_, crashed⟩, ran, written⟩ := Option.map_eq_some_iff.mp ends
  have completes := System.run_completes ran
  have runs := commit_runs (p := ()) ok (fun _ => rfl) rfl clean
  have settled := runs.post_of_completes completes
  rcases recovers_exists (p := ()) (by decide) settled with ⟨disk', recovers⟩
  have atomic :=
    commit_crash_atomic oneBlockLogged ok (fun _ => rfl) rfl clean
      completes recovers
  have header : oneBlockLogged.log.start ∈ crashed.written := by
    rw [show crashed.written = [2, 40, 2, 3] from written]
    decide
  have new : disk' 40 = oneBlockLogged.view 40 := atomic.2.2.1 header 40 (by decide)
  refine ⟨crashed, disk', completes, written, recovers, atomic.1, new, ?_⟩
  rw [new]
  intro same
  exact absurd (congrFun same ⟨0, by decide⟩) (by decide)

end PiKernel.Logging
