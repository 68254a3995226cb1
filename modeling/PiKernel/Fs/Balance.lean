import PiKernel.Fs.FailedCalls
import PiKernel.Fs.Restoring

/-!
# What the functions on inodes and files take and give back

One rule for each function of `fs.c`, `file.c` and `sysfile.c`: from what its process holds
when it is called to what it holds when the function returns.  Obligations pass between
callers: `namex` returns a reference, `create` a reference and a lock.
-/

namespace PiKernel.Fs

open PiKernel.Conc

variable {Pid : Type} [DecidableEq Pid] [Fintype Pid]

/-- The program meets its duties and ends with `post`. -/
def Meets {α : Type} (lost : Fin NINODE → Nat) (flost : Fin NFILE → Nat) (sb : Superblock)
    (task : Tables Pid → Pid → Prog (Act Pid) Unit → Prop) (p : Pid)
    (program : Prog (Act Pid) α) (v : Held) (post : α → Held → Prop) : Prop :=
  (duties lost flost sb task).Safe p (program.expand (body sb)) v post

section Rules

variable
    {lost : Fin NINODE → Nat}
    {flost : Fin NFILE → Nat}
    {sb : Superblock}
    {task : Tables Pid → Pid → Prog (Act Pid) Unit → Prop}
    {p : Pid}
    {v : Held}
    {α β : Type}

theorem Meets.bind {program : Prog (Act Pid) α} {next : α → Prog (Act Pid) β}
    {post : β → Held → Prop}
    (first : Meets lost flost sb task p program v fun value w =>
      Meets lost flost sb task p (next value) w post) :
    Meets lost flost sb task p (program >>= next) v post := by
  unfold Meets
  rw [expand_bind]
  exact Views.Safe.bind first

theorem Meets.ret {value : α} {post : α → Held → Prop} (holds : post value v) :
    Meets lost flost sb task p (.ret value) v post :=
  Views.Safe.ret holds

theorem Meets.panic {message : String} {post : α → Held → Prop} (other : message ∉ misuse) :
    Meets lost flost sb task p (.panic message) v post :=
  panic_safe other

/-- An action on the tables, then the rest. -/
theorem Meets.table {action : Table Pid α} {next : α → Prog (Act Pid) β}
    {post : β → Held → Prop}
    (safe : (duties lost flost sb task).Safe p (Prog.perform (.left action)) v fun value w =>
      Meets lost flost sb task p (next value) w post) :
    Meets lost flost sb task p (Fs.table action >>= next) v post :=
  Meets.bind safe

/-- An action on an inode that restores what is held, then the rest. -/
theorem Meets.act {action : FileAct α} {next : α → Prog (Act Pid) β} {post : β → Held → Prop}
    (restores : Restores lost flost sb task p v (body sb (.right action : Act Pid α)))
    (later : ∀ value, Meets lost flost sb task p (next value) v post) :
    Meets lost flost sb task p (perform action >>= next) v post := by
  refine Meets.bind ?_
  unfold Meets
  rw [expand_perform]
  refine Views.Safe.mono restores ?_
  rintro value w rfl
  exact later value

theorem Meets.last {action : FileAct α} {post : α → Held → Prop}
    (restores : Restores lost flost sb task p v (body sb (.right action : Act Pid α)))
    (holds : ∀ value, post value v) : Meets lost flost sb task p (perform action) v post := by
  unfold Meets
  rw [expand_perform]
  refine Views.Safe.mono restores ?_
  rintro value w rfl
  exact holds value

end Rules

section Inodes

variable
    {lost : Fin NINODE → Nat}
    {flost : Fin NFILE → Nat}
    {sb : Superblock}
    {task : Tables Pid → Pid → Prog (Act Pid) Unit → Prop}
    {p : Pid}
    {v : Held}
    {ip dp : Fin NINODE}

/-! ## The copy of an inode -/

theorem fields_restores (locked : ip ∈ v.locks) :
    Restores lost flost sb task p v (body sb (.right (.fields ip) : Act Pid Meta)) := by
  refine Restores.bind (.silent trivial locked) fun d => ?_
  exact .ret _

theorem setFields_restores {copy : Meta} (locked : ip ∈ v.locks) :
    Restores lost flost sb task p v (body sb (.right (.setFields ip copy) : Act Pid Unit)) := by
  refine Restores.bind (.silent trivial locked) fun d => ?_
  exact .silent trivial locked

/-! ## References and locks -/

theorem iget_meets {inum : Nat} {post : Fin NINODE → Held → Prop}
    (holds : ∀ i, post i (v.inc i)) :
    Meets lost flost sb task p (iget inum) v post := by
  refine .table (iget_safe ?_ fun i => ?_)
  · exact .panic (by decide)
  · exact .ret (holds i)

theorem idup_meets {post : Fin NINODE → Held → Prop} (refers : v.Refers ip)
    (holds : post ip (v.inc ip)) : Meets lost flost sb task p (idup ip) v post := by
  refine .table (idup_safe refers ?_)
  exact .ret holds

theorem ialloc_meets {type : UInt16} {post : Fin NINODE → Held → Prop} (empty : v.bufs = ∅)
    (holds : ∀ i, post i (v.inc i)) :
    Meets lost flost sb task p (ialloc sb type) v post := by
  have loop : ∀ count inum, Meets lost flost sb task p (iallocLoop type count inum) v post := by
    intro count
    induction count with
    | zero =>
        intro inum
        exact .panic (by decide)
    | succ count ih =>
        intro inum
        refine .act (itake_restores (empty ▸ Set.subsingleton_empty)) fun taken => ?_
        split
        · exact iget_meets holds
        · exact ih _
  exact loop _ _

theorem ilock_meets {post : Unit → Held → Prop} (refers : v.Refers ip) (empty : v.bufs = ∅)
    (holds : ip ∉ v.locks → post () (v.lock ip)) :
    Meets lost flost sb task p (ilock ip) v post := by
  refine .table (refOf_safe refers fun n positive => ?_)
  rw [if_neg (by omega)]
  refine .table (acquiresleep_safe refers empty fun free => ?_)
  have locked : ip ∈ (v.lock ip).locks := Set.mem_insert ip v.locks
  refine .table (isValid_safe locked fun valid => ?_)
  split
  · exact .ret (holds free)
  · refine .act (iload_restores locked (?_ : (v.lock ip).bufs.Subsingleton)) fun _ => ?_
    · exact empty ▸ Set.subsingleton_empty
    · refine .table (setValid_safe locked ?_)
      refine .act (fields_restores locked) fun copy => ?_
      split
      · exact .panic (by decide)
      · exact .ret (holds free)

theorem iunlock_meets {post : Unit → Held → Prop} (refers : v.Refers ip)
    (locked : ip ∈ v.locks) (holds : post () (v.unlock ip)) :
    Meets lost flost sb task p (iunlock ip) v post := by
  refine .table (holdingsleep_safe locked ?_)
  refine .table (refOf_safe refers fun n positive => ?_)
  have fine : (!true || decide (n < 1)) = false := by simp; omega
  rw [fine, if_neg (by decide)]
  exact releasesleep_safe locked holds

theorem iput_meets {post : Unit → Held → Prop} (held : 0 < v.refs ip) (empty : v.bufs = ∅)
    (holds : post () (v.dec ip)) : Meets lost flost sb task p (iput ip) v post := by
  refine .table (acquiresleep_safe (.inl held) empty fun free => ?_)
  have locked : ip ∈ (v.lock ip).locks := Set.mem_insert ip v.locks
  have ends : Meets lost flost sb task p
      (table (.releasesleep ip) >>= fun _ => table (.unref ip)) (v.lock ip) post := by
    refine .table (releasesleep_safe locked ?_)
    rw [Held.unlock_lock free]
    exact unref_safe held holds
  refine .table (isValid_safe locked fun valid => ?_)
  dsimp only
  split
  · refine .act (fields_restores locked) fun copy => ?_
    split
    · refine .table (lastRef_safe locked fun ref => ?_)
      split
      · refine .act (ifree_restores locked empty) fun _ => ?_
        exact .table (setValid_safe locked ends)
      · exact ends
    · exact ends
  · exact ends

/-- Common idiom: unlock, then put. -/
theorem iunlockput_meets {post : Unit → Held → Prop} (held : 0 < v.refs ip)
    (locked : ip ∈ v.locks) (empty : v.bufs = ∅) (holds : post () ((v.unlock ip).dec ip)) :
    Meets lost flost sb task p (iunlockput ip) v post :=
  .bind (iunlock_meets (.inl held) locked (iput_meets held empty holds))

/-! ## Contents -/

section Contents

variable
    {devsw : Devsw}
    {name : List UInt8}

theorem device_meets {α : Type} {result : α} {post : α → Held → Prop} (refers : v.Refers ip)
    (locked : ip ∈ v.locks) (empty : v.bufs = ∅) (holds : post result v) :
    Meets lost flost sb task p (device ip result) v post := by
  refine .bind (iunlock_meets refers locked ?_)
  refine .bind (ilock_meets refers empty fun _ => ?_)
  rw [Held.lock_unlock locked]
  exact .ret holds

theorem readi_meets {off n : Nat} {post : Option (List UInt8) → Held → Prop}
    (refers : v.Refers ip) (locked : ip ∈ v.locks) (empty : v.bufs = ∅)
    (holds : ∀ r, post r v) :
    Meets lost flost sb task p (readi devsw ip off n) v post := by
  refine .act (fields_restores locked) fun copy => ?_
  split
  · split
    · exact .ret (holds _)
    · split
      · exact .ret (holds _)
      · exact device_meets refers locked empty (holds _)
  · exact .last (readBytes_restores locked empty) holds

theorem writei_meets {off : Nat} {src : List UInt8} {post : Option Nat → Held → Prop}
    (refers : v.Refers ip) (locked : ip ∈ v.locks) (empty : v.bufs = ∅)
    (holds : ∀ r, post r v) :
    Meets lost flost sb task p (writei devsw ip src off) v post := by
  refine .act (fields_restores locked) fun copy => ?_
  split
  · split
    · exact .ret (holds _)
    · split
      · exact .ret (holds _)
      · exact device_meets refers locked empty (holds _)
  · exact .last (writeBytes_restores locked empty) holds

/-! ## Directories -/

/-- A directory that is found gives a reference. -/
theorem dirlookup_meets {post : Option (Fin NINODE × Nat) → Held → Prop}
    (refers : v.Refers dp) (locked : dp ∈ v.locks) (empty : v.bufs = ∅) (missing : post none v)
    (found : ∀ i off, post (some (i, off)) (v.inc i)) :
    Meets lost flost sb task p (dirlookup devsw dp name) v post := by
  have loop : ∀ count off,
      Meets lost flost sb task p (dirlookupLoop devsw dp name count off) v post := by
    intro count
    induction count with
    | zero =>
        intro off
        exact .ret missing
    | succ count ih =>
        intro off
        refine .bind (readi_meets refers locked empty fun r => ?_)
        split
        · exact .panic (by decide)
        · split
          · exact .panic (by decide)
          · dsimp only
            split
            · exact ih _
            · split
              · refine .bind (iget_meets fun i => ?_)
                exact .ret (found i off)
              · exact ih _
  refine .act (fields_restores locked) fun copy => ?_
  split
  · exact .panic (by decide)
  · exact loop _ _

theorem dirlink_meets {inum : Nat} {post : Bool → Held → Prop} (refers : v.Refers dp)
    (locked : dp ∈ v.locks) (empty : v.bufs = ∅) (holds : ∀ r, post r v) :
    Meets lost flost sb task p (dirlink devsw dp name inum) v post := by
  have loop : ∀ {post : Nat → Held → Prop}, (∀ off, post off v) → ∀ count off,
      Meets lost flost sb task p (dirlinkLoop devsw dp count off) v post := by
    intro post holds count
    induction count with
    | zero =>
        intro off
        exact .ret (holds off)
    | succ count ih =>
        intro off
        refine .bind (readi_meets refers locked empty fun r => ?_)
        split
        · exact .panic (by decide)
        · split
          · exact .panic (by decide)
          · split
            · exact .ret (holds off)
            · exact ih _
  refine .bind (dirlookup_meets refers locked empty ?_ fun i off => ?_)
  · refine .act (fields_restores locked) fun copy => ?_
    refine .bind (loop (fun off => ?_) _ _)
    dsimp only
    refine .bind (writei_meets refers locked empty fun r => ?_)
    split
    · exact .panic (by decide)
    · exact .ret (holds _)
  · refine .bind (iput_meets Held.inc_self empty ?_)
    rw [Held.dec_inc]
    exact .ret (holds _)

/-! ## Paths -/

/-- The loop holds one reference at a time. -/
theorem namexLoop_meets {nameiparent : Bool} {post : Option (Fin NINODE × List UInt8) → Held → Prop}
    (empty : v.bufs = ∅) (missing : post none v)
    (found : ∀ i name, post (some (i, name)) (v.inc i)) (fuel : Nat) (path : List UInt8) :
    Meets lost flost sb task p (namexLoop devsw nameiparent fuel path name ip) (v.inc ip)
      post := by
  have ends : ∀ (ip : Fin NINODE) (name : List UInt8), Meets lost flost sb task p
      (if nameiparent = true then iput ip >>= fun _ => .ret none else .ret (some (ip, name)))
      (v.inc ip) post := by
    intro ip name
    split
    · refine .bind (iput_meets Held.inc_self empty ?_)
      rw [Held.dec_inc]
      exact .ret missing
    · exact .ret (found ip name)
  induction fuel generalizing path name ip with
  | zero => exact ends ip name
  | succ fuel ih =>
      unfold namexLoop
      cases elem : skipelem path with
      | none => exact ends ip name
      | some rest =>
          rcases rest with ⟨path, name⟩
          refine .bind (ilock_meets Held.inc_refers empty fun free => ?_)
          have locked : ip ∈ ((v.inc ip).lock ip).locks := Set.mem_insert ip _
          have held : 0 < ((v.inc ip).lock ip).refs ip := Held.inc_self
          have back : (((v.inc ip).lock ip).unlock ip).dec ip = v := by
            rw [Held.unlock_lock free, Held.dec_inc]
          refine .act (fields_restores locked) fun copy => ?_
          split
          · refine .bind (iunlockput_meets held locked empty ?_)
            rw [back]
            exact .ret missing
          · split
            · refine .bind (iunlock_meets (.inl held) locked ?_)
              rw [Held.unlock_lock free]
              exact .ret (found ip name)
            · refine .bind (dirlookup_meets (.inl held) locked empty ?_ fun next off => ?_)
              · refine .bind (iunlockput_meets held locked empty ?_)
                rw [back]
                exact .ret missing
              · refine .bind (iunlockput_meets (Held.inc_pos held) locked empty ?_)
                have free' : ip ∉ ((v.inc ip).inc next).locks := free
                have passed : ((((v.inc ip).lock ip).inc next).unlock ip).dec ip = v.inc next := by
                  change ((((v.inc ip).inc next).lock ip).unlock ip).dec ip = v.inc next
                  rw [Held.unlock_lock free', Held.inc_comm, Held.dec_inc]
                rw [passed]
                exact ih path

theorem namex_meets {nameiparent : Bool} {path : List UInt8}
    {post : Option (Fin NINODE × List UInt8) → Held → Prop} (empty : v.bufs = ∅)
    (here : ∀ i, v.cwd = some i → v.Refers i) (missing : post none v)
    (found : ∀ i name, post (some (i, name)) (v.inc i)) :
    Meets lost flost sb task p (namex devsw path nameiparent) v post := by
  have walk : ∀ ip, Meets lost flost sb task p
      (namexLoop devsw nameiparent path.length path [] ip) (v.inc ip) post :=
    fun ip => namexLoop_meets empty missing found _ _
  unfold namex
  dsimp only
  split
  · exact .bind (iget_meets walk)
  · refine .table (cwd_safe fun i cwd => ?_)
    exact .bind (idup_meets (here i cwd) (walk i))

theorem namei_meets {path : List UInt8} {post : Option (Fin NINODE) → Held → Prop}
    (empty : v.bufs = ∅) (here : ∀ i, v.cwd = some i → v.Refers i) (missing : post none v)
    (found : ∀ i, post (some i) (v.inc i)) :
    Meets lost flost sb task p (namei devsw path) v post := by
  refine .bind (namex_meets empty here ?_ fun i name => ?_)
  · exact .ret missing
  · exact .ret (found i)

end Contents

end Inodes

end PiKernel.Fs
