import PiKernel.Fs.ReadWrite
import PiKernel.Fs.Syscalls

/-!
# One operation alone

The functions around the work of an operation: its two ends and the lock of its inode,
where no other process runs; and what `fork` then does to the tables.
-/

namespace PiKernel.Fs

open PiKernel.Bytes
open PiKernel.Conc

variable {Pid : Type} [DecidableEq Pid] {sb : Superblock}
  {task : Tables Pid → Pid → Prog (Act Pid) Unit → Prop} {p : Pid} {mayPanic : String → Prop}
  {s : Blocks Pid} {ip : Fin NINODE}

omit [DecidableEq Pid] in
theorem expand_bind {α β : Type} (program : Prog (Act Pid) α) (next : α → Prog (Act Pid) β) :
    (program >>= next).expand (body sb) =
      program.expand (body sb) >>= fun value => (next value).expand (body sb) := by
  induction program with
  | ret value => rfl
  | act action rest ih =>
      change (body sb action >>= fun result => (rest result >>= next).expand (body sb)) =
        (body sb action >>= fun result => (rest result).expand (body sb)) >>= _
      rw [Prog.bind_assoc]
      congr 1
      funext result
      exact ih result
  | panic message => rfl

/-- Running alone, a program ends as its parts do. -/
theorem bind_ends {α β : Type} {program : Prog (Act Pid) α} {next : α → Prog (Act Pid) β}
    {post : β → Blocks Pid → Prop}
    (ends : (blocksSystem sb task).Ends p mayPanic
      (fun value after =>
        (blocksSystem sb task).Ends p mayPanic post ((next value).expand (body sb)) after)
      (program.expand (body sb)) s) :
    (blocksSystem sb task).Ends p mayPanic post ((program >>= next).expand (body sb)) s := by
  rw [expand_bind]
  exact ends.bind

/-- Lock the given inode. -/
theorem ilock_ends {post : Unit → Blocks Pid → Prop} (referenced : 0 < s.ref ip)
    (unlocked : s.lock ip = none) (free : s.holder (sb.IBLOCK (s.inum ip)) = none)
    (copy : s.valid ip = true → s.inode ip = dinode sb s.view (s.inum ip))
    (type : (dinode sb s.view (s.inum ip)).type ≠ 0)
    (holds : post ()
      { s with
        lock := Function.update s.lock ip (some p)
        valid := Function.update s.valid ip true
        inode := Function.update s.inode ip (dinode sb s.view (s.inum ip)) }) :
    (blocksSystem sb task).Ends p mayPanic post ((ilock ip).expand (body sb)) s := by
  apply System.Ends.step rfl
  change (blocksSystem sb task).Ends p _ _
    (Prog.expand _ (if s.ref ip < 1 then _ else _)) s
  rw [if_neg (by omega)]
  have lock : (blocksSystem sb task).exec (.left (.acquiresleep ip)) p s =
      .done () { s with lock := Function.update s.lock ip (some p) } := by
    simp [blocksSystem, Blocks.exec, Tables.exec, unlocked, Outcome.map]
  apply System.Ends.step lock
  apply System.Ends.step rfl
  change (blocksSystem sb task).Ends p _ _
    (Prog.expand _ (if s.valid ip = true then _ else _)) _
  by_cases valid : s.valid ip = true
  · rw [if_pos valid]
    apply System.Ends.ret
    rw [← copy valid, Function.update_eq_self] at holds
    have still : Function.update s.valid ip true = s.valid := by
      rw [← valid, Function.update_eq_self]
    rw [still] at holds
    exact holds
  · rw [if_neg valid]
    apply System.Ends.bind
    apply iload_ends
    · exact free
    · apply System.Ends.step rfl
      apply System.Ends.step rfl
      change (blocksSystem sb task).Ends p _ _
        (Prog.expand _ (if (Function.update s.inode ip _ ip).toMeta.type = 0 then _ else _)) _
      rw [Function.update_self, if_neg type]
      exact System.Ends.ret holds

/-- Unlock the given inode. -/
theorem iunlock_ends {post : Unit → Blocks Pid → Prop} (referenced : 0 < s.ref ip)
    (locked : s.lock ip = some p)
    (holds : post () { s with lock := Function.update s.lock ip none }) :
    (blocksSystem sb task).Ends p mayPanic post ((iunlock ip).expand (body sb)) s := by
  apply System.Ends.step rfl
  apply System.Ends.step rfl
  change (blocksSystem sb task).Ends p _ _
    (Prog.expand _ (if (!decide (s.lock ip = some p) || decide (s.ref ip < 1)) = true
      then _ else _)) s
  rw [if_neg (by simp [locked]; omega)]
  exact System.Ends.perform rfl holds

/-! ## The ends of an operation -/

/-- No operation is in progress, and the log is empty. -/
structure NoOps (s : Blocks Pid) (p : Pid) : Prop where
  outstanding : s.log.outstanding = 0
  committing : s.log.committing = false
  empty : s.log.lh.n = 0
  awake : s.asleep p = false

/-- `log.outstanding` counts the operation of the process. -/
def began (s : Blocks Pid) (p : Pid) : Blocks Pid :=
  { s with
    log := { s.log with outstanding := 1 }
    current := Function.update s.current p (some ∅)
    frees := Function.update s.frees p false }

/-- Called at the start of each FS system call. -/
theorem beginOp_ends {post : Unit → Blocks Pid → Prop} (none : NoOps s p)
    (holds : post () (began s p)) :
    (blocksSystem sb task).Ends p mayPanic post (beginOp.expand (body sb)) s := by
  have full : s.log.full = false := by
    simp [Logging.Log.full, none.outstanding, none.empty, MAXOPBLOCKS, LOGSIZE]
  have effect : (blocksSystem sb task).exec (.right .beginOp) p s = .done () (began s p) := by
    simp [blocksSystem, Blocks.exec, BlockAct.exec, Logging.Ops.beginOp, none.awake,
      none.committing, full, Outcome.map, began, none.outstanding]
  exact System.Ends.perform effect holds

/-- What the commit of the only operation leaves. -/
def ended (s : Blocks Pid) (p : Pid) : Blocks Pid :=
  { s with
    log := { s.log with
      outstanding := 0
      committing := false
      lh := { s.log.lh with n := 0 } }
    asleep := fun _ => false
    current := Function.update s.current p none
    finished := [] }

/-- Called at the end of each FS system call. -/
theorem endOp_ends {post : Unit → Blocks Pid → Prop} (only : s.log.outstanding = 1)
    (committing : s.log.committing = false) (holds : post () (ended s p)) :
    (blocksSystem sb task).Ends p mayPanic post (endOp.expand (body sb)) s := by
  have closes : s.toOps.endOp p = (some true,
      { s.toOps with
        log := { s.log with outstanding := 0, committing := true }
        current := Function.update s.current p none
        finished := (s.current p).getD ∅ :: s.finished }) := by
    simp [Logging.Ops.endOp, only, committing]
  have effect : (blocksSystem sb task).exec (.right .endOp) p s =
      .done (s.toOps.endOp p).1 { s with toOps := (s.toOps.endOp p).2 } := rfl
  rw [closes] at effect
  rw [endOp, expand_perform]
  apply System.Ends.step effect
  apply System.Ends.step rfl
  exact System.Ends.perform rfl holds

/-! ## `fork` -/

/-- A reference more for each of some descriptors. -/
def Tables.dup (s : Tables Pid) (p : Pid) (fds : List (Fin NOFILE)) : Tables Pid :=
  let count (f : Fin NFILE) : Nat := fds.countP fun fd => s.ofile p fd == some f
  { s with
    ftable := fun f => { s.ftable f with ref := (s.ftable f).ref + count f }
    fhold := Function.update s.fhold p fun f => s.fhold p f + count f }

theorem Tables.dup_none {tables : Tables Pid} {fd : Fin NOFILE} {fds : List (Fin NOFILE)}
    (unused : tables.ofile p fd = none) : tables.dup p (fd :: fds) = tables.dup p fds := by
  simp [Tables.dup, unused]

theorem Tables.filedup_used {tables : Tables Pid} {f : Fin NFILE}
    (used : 0 < (tables.ftable f).ref) :
    tables.filedup p f =
      (true, (tables.setFile f
        { tables.ftable f with ref := (tables.ftable f).ref + 1 }).setFhold p f
          (tables.fhold p f + 1)) :=
  if_neg (Nat.not_lt.mpr used)

theorem Tables.dup_some {tables : Tables Pid} {fd : Fin NOFILE} {fds : List (Fin NOFILE)}
    {f : Fin NFILE} (taken : tables.ofile p fd = some f) (used : 0 < (tables.ftable f).ref) :
    tables.dup p (fd :: fds) = (tables.filedup p f).2.dup p fds := by
  rw [Tables.filedup_used used]
  unfold Tables.dup Tables.setFile Tables.setFhold
  simp only [Function.update_self, Function.update_idem]
  congr 1
  · funext g
    rw [List.countP_cons, taken]
    by_cases same : g = f
    · subst same
      simp only [beq_self_eq_true, if_true, Function.update_self]
      congr 1
      omega
    · simp [Function.update_of_ne same, Ne.symm same]
  · congr 1
    funext g
    rw [List.countP_cons, taken]
    by_cases same : g = f
    · subst same
      simp only [beq_self_eq_true, if_true, Function.update_self]
      omega
    · simp [Function.update_of_ne same, Ne.symm same]

theorem dupAll_ends {post : Unit → Blocks Pid → Prop}
    (fds : List (Fin NOFILE))
    (used : ∀ fd f, s.ofile p fd = some f → 0 < (s.ftable f).ref)
    (holds : post () { s with toTables := s.toTables.dup p fds }) :
    (blocksSystem sb task).Ends p mayPanic post ((dupAll fds).expand (body sb)) s := by
  induction fds generalizing s with
  | nil =>
      have same : s.toTables.dup p [] = s.toTables := by simp [Tables.dup]
      rw [same] at holds
      exact .ret holds
  | cons fd fds ih =>
      have read : (blocksSystem sb task).exec (.left (.ofile fd)) p s =
          .done (s.ofile p fd) s := rfl
      cases file : s.ofile p fd with
      | none =>
          rw [file] at read
          rw [Tables.dup_none file] at holds
          apply System.Ends.step read
          exact ih used holds
      | some f =>
          rw [file] at read
          have referred := used fd f file
          rw [Tables.dup_some file referred] at holds
          have dup : (blocksSystem sb task).exec (.left (.filedup f)) p s =
              .done true { s with toTables := (s.filedup p f).2 } := by
            have first : (s.filedup p f).1 = true := by rw [Tables.filedup_used referred]
            rw [← first]
            rfl
          apply System.Ends.step read
          apply System.Ends.step dup
          refine ih (fun fd' g other => ?_) holds
          dsimp only at other ⊢
          rw [Tables.filedup_used referred] at other ⊢
          change 0 < (Function.update s.ftable f _ g).ref
          by_cases same : g = f
          · simp [same]
          · rw [Function.update_of_ne same]
            exact used fd' g other

/-- What was counted for the child goes to it. -/
theorem Tables.dup_start {tables : Tables Pid} {child : Pid} {cwd : Fin NINODE}
    (here : tables.cwd p = some cwd) :
    ((tables.dup p (List.finRange NOFILE)).idup p cwd).start p child = tables.fork p child := by
  unfold Tables.start Tables.fork
  congr 1
  case e_ref =>
    funext i
    change Function.update tables.ref cwd (tables.ref cwd + 1) i = _
    rw [here]
    by_cases same : i = cwd
    · simp [same]
    · simp [Function.update_of_ne same, Ne.symm same]
  case e_hold =>
    congr 1
    funext q
    by_cases mine : q = p
    · subst mine
      funext i
      simp only [Tables.idup, Tables.dup, Function.update_self, here]
      by_cases same : i = cwd
      · simp [same]
      · simp [Function.update_of_ne same, Ne.symm same]
    · simp [Tables.idup, Tables.dup, Function.update_of_ne mine]
  case e_fhold =>
    congr 1
    funext q
    by_cases mine : q = p
    · subst mine
      funext f
      simp only [Tables.idup, Tables.dup, Function.update_self]
      exact Nat.add_sub_cancel ..
    · simp [Tables.idup, Tables.dup, Function.update_of_ne mine]

/-- `fork` comes to one step on the tables. -/
theorem fork_alone {cwd : Fin NINODE} {child : Pid} (waits : s.born child = false)
    (here : s.cwd p = some cwd)
    (used : ∀ fd f, s.ofile p fd = some f → 0 < (s.ftable f).ref) :
    (blocksSystem sb task).Completes p ((fork child).expand (body sb)) s ()
      { s with toTables := s.toTables.fork p child } := by
  have ends : (blocksSystem sb task).Ends p (fun _ => False)
      (fun _ after => after = { s with toTables := s.toTables.fork p child })
      ((fork child).expand (body sb)) s := by
    apply bind_ends
    apply dupAll_ends _ used
    have read : (blocksSystem sb task).exec (.left .cwd) p
        { s with toTables := s.toTables.dup p (List.finRange NOFILE) } =
        .done cwd { s with toTables := s.toTables.dup p (List.finRange NOFILE) } := by
      change (Tables.exec .cwd p (s.toTables.dup p _)).map _ = _
      simp only [Tables.exec, Tables.dup, here]
      rfl
    apply System.Ends.step read
    apply System.Ends.step rfl
    have start : (blocksSystem sb task).exec (.left (.start child)) p
        { s with toTables := (s.dup p (List.finRange NOFILE)).idup p cwd } =
        .done () { s with toTables := s.toTables.fork p child } := by
      change (Tables.exec (.start child) p ((s.dup p _).idup p cwd)).map _ = _
      rw [← Tables.dup_start here]
      simp only [Tables.exec, Tables.dup, Tables.idup, waits]
      rfl
    exact System.Ends.perform start rfl
  rcases ends.completes with ⟨_, _, completes, rfl⟩
  exact completes

end PiKernel.Fs
