import PiKernel.Fs.Operations

/-!
# References to inodes

`iget` finds an inode in the cache, or takes an unused entry for it, and `iput` gives a
reference back, where no other process runs.  A reference that has just been taken is given
back without a trace: its inode is not the one to be freed.
-/

namespace PiKernel.Fs

open PiKernel.Bytes
open PiKernel.Conc

variable {Pid : Type} [DecidableEq Pid] {sb : Superblock}
  {task : Tables Pid → Pid → Prog (Act Pid) Unit → Prop} {p : Pid} {mayPanic : String → Prop}
  {s : Blocks Pid} {t t' : Tables Pid} {ip i : Fin NINODE} {inum : Nat}

/-- The message of `iget` where all entries of the cache are in use. -/
def noInodes : String := "iget: no inodes\n"

/-! ## `iget` -/

omit [DecidableEq Pid] in
theorem Tables.of_find (found : t.find inum = some i) : 0 < t.ref i ∧ t.inum i = inum := by
  have holds := List.find?_some found
  rw [Bool.and_eq_true, decide_eq_true_eq, beq_iff_eq] at holds
  exact holds

omit [DecidableEq Pid] in
theorem Tables.of_empty (spare : t.empty = some i) : t.ref i = 0 := by
  have holds := List.find?_some spare
  exact beq_iff_eq.mp holds

omit [DecidableEq Pid] in
theorem Tables.empty_none (full : t.empty = none) : 0 < t.ref i := by
  have missed := List.find?_eq_none.mp full i (List.mem_finRange i)
  rw [beq_iff_eq] at missed
  exact Nat.pos_of_ne_zero missed

/-- A reference to an inode has been taken. -/
inductive Got (t : Tables Pid) (p : Pid) (inum : Nat) : Fin NINODE → Tables Pid → Prop where
  | found {i : Fin NINODE} (here : t.find inum = some i) : Got t p inum i (t.idup p i)
  | recycled {i : Fin NINODE} (absent : t.find inum = none) (spare : t.empty = some i) :
      Got t p inum i (t.recycle p i inum)

namespace Got

theorem inum_self (got : Got t p inum i t') : t'.inum i = inum := by
  cases got with
  | found here => exact (Tables.of_find here).2
  | recycled _ _ => exact Function.update_self ..

theorem ref (got : Got t p inum i t') : t'.ref = Function.update t.ref i (t.ref i + 1) := by
  cases got with
  | found _ => rfl
  | recycled _ spare =>
      rw [Tables.of_empty spare]
      rfl

/-- Taken and given back. -/
theorem ref_unref (got : Got t p inum i t') : (t'.unref p i).ref = t.ref := by
  change Function.update t'.ref i (t'.ref i - 1) = t.ref
  rw [got.ref, Function.update_self, Function.update_idem, Nat.add_sub_cancel,
    Function.update_eq_self]

theorem lock (got : Got t p inum i t') : t'.lock = t.lock := by
  cases got <;> rfl

/-- Entries in use name the same inodes as before. -/
theorem inum_used {j : Fin NINODE} (got : Got t p inum i t') (used : 0 < t.ref j) :
    t'.inum j = t.inum j := by
  cases got with
  | found _ => rfl
  | recycled _ spare =>
      apply Function.update_of_ne
      rintro rfl
      rw [Tables.of_empty spare] at used
      exact Nat.lt_irrefl 0 used

theorem valid_used {j : Fin NINODE} (got : Got t p inum i t') (used : 0 < t.ref j) :
    t'.valid j = t.valid j := by
  cases got with
  | found _ => rfl
  | recycled _ spare =>
      apply Function.update_of_ne
      rintro rfl
      rw [Tables.of_empty spare] at used
      exact Nat.lt_irrefl 0 used

/-- The inode has another reference, or nothing is known of it. -/
theorem kept (got : Got t p inum i t') (valid : t'.valid i = true) : 1 < t'.ref i := by
  rw [got.ref, Function.update_self]
  cases got with
  | found here => exact Nat.succ_lt_succ (Tables.of_find here).1
  | recycled _ _ =>
      change Function.update t.valid i false i = true at valid
      rw [Function.update_self] at valid
      cases valid

end Got

/-- Find the inode with number inum and return the in-memory copy. -/
theorem iget_ends {post : Fin NINODE → Blocks Pid → Prop}
    (full : s.find inum = none → (∀ i, 0 < s.ref i) → mayPanic noInodes)
    (holds : ∀ i t, Got s.toTables p inum i t → post i { s with toTables := t }) :
    (blocksSystem sb task).Ends p mayPanic post ((iget inum).expand (body sb)) s := by
  have effect : (blocksSystem sb task).exec (.left (.iget inum)) p s =
      .done (s.toTables.iget p inum).1 { s with toTables := (s.toTables.iget p inum).2 } := rfl
  apply System.Ends.step effect
  rw [Tables.iget]
  cases found : s.find inum with
  | some i => exact System.Ends.ret (holds i _ (.found found))
  | none =>
      cases spare : s.empty with
      | some i => exact System.Ends.ret (holds i _ (.recycled found spare))
      | none => exact System.Ends.panic (full found fun i => Tables.empty_none spare)

/-! ## `iput` -/

/-- The lock is released before the reference is given back. -/
theorem releasePut_ends {post : Unit → Blocks Pid → Prop} (unlocked : s.lock ip = none)
    (holds : post () { s with toTables := s.toTables.unref p ip }) :
    (blocksSystem sb task).Ends p mayPanic post
      (Prog.expand (body sb) do
        table (.releasesleep ip)
        table (.unref ip))
      { s with lock := Function.update s.lock ip (some p) } := by
  apply System.Ends.step rfl
  refine System.Ends.perform rfl ?_
  have lock : Function.update (Function.update s.lock ip (some p)) ip none = s.lock := by
    rw [Function.update_idem, ← unlocked, Function.update_eq_self]
  simp only [lock]
  exact holds

/-- Drop a reference to an inode that is not the last one, or has links. -/
theorem iput_ends {post : Unit → Blocks Pid → Prop} (unlocked : s.lock ip = none)
    (kept : s.valid ip = true → (s.inode ip).nlink = 0 → s.ref ip ≠ 1)
    (holds : post () { s with toTables := s.toTables.unref p ip }) :
    (blocksSystem sb task).Ends p mayPanic post ((iput ip).expand (body sb)) s := by
  have lock : (blocksSystem sb task).exec (.left (.acquiresleep ip)) p s =
      .done () { s with lock := Function.update s.lock ip (some p) } := by
    simp [blocksSystem, Blocks.exec, Tables.exec, unlocked, Outcome.map]
  apply System.Ends.step lock
  apply System.Ends.step rfl
  change (blocksSystem sb task).Ends p _ _
    (Prog.expand _ (if s.valid ip = true then _ else _)) _
  by_cases valid : s.valid ip = true
  · rw [if_pos valid]
    apply System.Ends.step rfl
    change (blocksSystem sb task).Ends p _ _
      (Prog.expand _ (if (s.inode ip).nlink = 0 then _ else _)) _
    by_cases unlinked : (s.inode ip).nlink = 0
    · rw [if_pos unlinked]
      have several := kept valid unlinked
      have last : (blocksSystem sb task).exec (.left (.lastRef ip)) p
          { s with lock := Function.update s.lock ip (some p) } =
            .done (s.ref ip) { s with lock := Function.update s.lock ip (some p) } := by
        have frees : Function.update s.frees p (s.frees p || s.ref ip == 1) = s.frees := by
          rw [beq_false_of_ne several, Bool.or_false, Function.update_eq_self]
        simp [blocksSystem, Blocks.exec, Tables.exec, Outcome.map, frees]
      apply System.Ends.step last
      change (blocksSystem sb task).Ends p _ _
        (Prog.expand _ (if s.ref ip = 1 then _ else _)) _
      rw [if_neg several]
      exact releasePut_ends unlocked holds
    · rw [if_neg unlinked]
      exact releasePut_ends unlocked holds
  · rw [if_neg valid]
    exact releasePut_ends unlocked holds

/-- Common idiom: unlock, then put. -/
theorem iunlockput_ends {post : Unit → Blocks Pid → Prop} (referenced : 0 < s.ref ip)
    (locked : s.lock ip = some p)
    (kept : s.valid ip = true → (s.inode ip).nlink = 0 → s.ref ip ≠ 1)
    (holds : post ()
      { s with
        toTables := { s.toTables with lock := Function.update s.lock ip none }.unref p ip }) :
    (blocksSystem sb task).Ends p mayPanic post ((iunlockput ip).expand (body sb)) s := by
  apply bind_ends
  apply iunlock_ends referenced locked
  apply iput_ends
  · exact Function.update_self ..
  · exact kept
  · exact holds

end PiKernel.Fs
