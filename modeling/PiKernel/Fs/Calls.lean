import PiKernel.Fs.Balance

/-!
# System calls give back what they take

Every call on files, on every path on which it returns, ends between two calls again: what
the process then holds is its current directory and its descriptors.
-/

namespace PiKernel.Fs

open PiKernel.Conc

variable {Pid : Type} [DecidableEq Pid] [Fintype Pid]

section Code

variable
    {lost : Fin NINODE → Nat}
    {flost : Fin NFILE → Nat}
    {sb : Superblock}
    {task : Tables Pid → Pid → Prog (Act Pid) Unit → Prop}
    {p : Pid}
    {v : Held}
    {devsw : Devsw}
    {ip dp : Fin NINODE}
    {f : Fin NFILE}

/-! ## Operations -/

theorem beginOp_meets {post : Unit → Held → Prop} (idle : v.op = false) (locks : v.locks = ∅)
    (empty : v.bufs = ∅) (holds : post () (v.setOp true)) :
    Meets lost flost sb task p beginOp v post := by
  unfold Meets beginOp
  rw [expand_perform]
  exact beginOp_safe idle locks empty holds

theorem endOp_meets {post : Unit → Held → Prop} (running : v.op = true) (locks : v.locks = ∅)
    (empty : v.bufs = ∅) (holds : post () (v.setOp false)) :
    Meets lost flost sb task p endOp v post := by
  unfold Meets endOp
  rw [expand_perform]
  refine Views.Safe.bind (endOp_safe running locks empty fun value => ?_)
  split
  · exact panic_safe (by decide)
  · split
    · refine Views.Safe.bind (silent_safe trivial ⟨locks, empty⟩ fun _ => ?_)
      exact silent_safe trivial ⟨locks, empty⟩ fun _ => holds
    · exact Views.Safe.ret holds

/-! ## Open files -/

/-- The last reference takes an operation of its own. -/
theorem fileclose_meets {post : Unit → Held → Prop} (held : 0 < v.files f) (empty : v.bufs = ∅)
    (idle : v.opened f ≠ none → v.op = false ∧ v.locks = ∅) (holds : post () (v.close f)) :
    Meets lost flost sb task p (fileclose f) v post := by
  refine .table (fileclose_safe held (.ret holds) (fun ff i type inode opened => ?_)
    fun ff type _ => ?_)
  · rcases idle (by simp [opened]) with ⟨noop, locks⟩
    simp only [type, inode]
    refine .bind (beginOp_meets noop locks empty ?_)
    refine .bind (iput_meets Held.inc_self empty ?_)
    refine endOp_meets rfl locks empty ?_
    have noop' : (v.close f).op = false := noop
    change post () ((((v.close f).inc i).dec i).setOp false)
    rw [Held.dec_inc, Held.setOp_same noop']
    exact holds
  · simp only [type]
    exact .ret holds

theorem stati_meets {post : Stat → Held → Prop} (locked : ip ∈ v.locks)
    (holds : ∀ st, post st v) : Meets lost flost sb task p (stati ip) v post := by
  refine .table (inumOf_safe fun inum => ?_)
  refine .act (fields_restores locked) fun copy => ?_
  dsimp only
  split
  · exact .ret (holds _)
  · split
    · exact .ret (holds _)
    · split
      · exact .ret (holds _)
      · exact .panic (by decide)

/-- A file that has an inode is open on it. -/
theorem inode_of {file : OpenFile} {i : Fin NINODE} (inode : file.inode = some i) :
    file.type = .FD_INODE ∧ file.ip = some i := by
  unfold OpenFile.inode at inode
  split at inode
  · next type => exact ⟨type, inode⟩
  · cases inode

theorem filestat_meets {post : Option Stat → Held → Prop} (opened : v.opened f = some ip)
    (held : 0 < v.files f) (empty : v.bufs = ∅) (holds : ∀ r, post r v) :
    Meets lost flost sb task p (filestat f) v post := by
  refine .table (file_safe held fun file inode => ?_)
  rcases inode_of (inode.trans opened) with ⟨type, place⟩
  have refers : v.Refers ip := .inr ⟨f, opened⟩
  simp only [type, place]
  refine .bind (ilock_meets refers empty fun free => ?_)
  have locked : ip ∈ (v.lock ip).locks := Set.mem_insert ip v.locks
  refine .bind (stati_meets locked fun st => ?_)
  refine .bind (iunlock_meets refers locked ?_)
  rw [Held.unlock_lock free]
  exact .ret (holds _)

theorem fileread_meets {n : Nat} {post : Option (List UInt8) → Held → Prop}
    (opened : v.opened f = some ip) (held : 0 < v.files f) (empty : v.bufs = ∅)
    (holds : ∀ r, post r v) : Meets lost flost sb task p (fileread devsw f n) v post := by
  refine .table (file_safe held fun file inode => ?_)
  rcases inode_of (inode.trans opened) with ⟨type, place⟩
  have refers : v.Refers ip := .inr ⟨f, opened⟩
  have locked : ip ∈ (v.lock ip).locks := Set.mem_insert ip v.locks
  split
  · exact .ret (holds _)
  · simp only [type, place]
    refine .bind (ilock_meets refers empty fun free => ?_)
    refine .table (off_safe opened locked fun off => ?_)
    refine .bind (readi_meets refers locked empty fun r => ?_)
    have ends : Meets lost flost sb task p (iunlock ip >>= fun _ => .ret r) (v.lock ip) post := by
      refine .bind (iunlock_meets refers locked ?_)
      rw [Held.unlock_lock free]
      exact .ret (holds _)
    split
    · exact ends
    · split
      · exact .table (setOff_safe opened locked ends)
      · exact ends

theorem filewriteChunk_meets {src : List UInt8} {post : Option Nat → Held → Prop}
    (opened : v.opened f = some ip) (idle : v.op = false) (locks : v.locks = ∅)
    (empty : v.bufs = ∅) (holds : ∀ r, post r v) :
    Meets lost flost sb task p (filewriteChunk devsw f ip src) v post := by
  have refers : v.Refers ip := .inr ⟨f, opened⟩
  have locked : ip ∈ (v.lock ip).locks := Set.mem_insert ip v.locks
  refine .bind (beginOp_meets idle locks empty ?_)
  refine .bind (ilock_meets refers empty fun free => ?_)
  refine .table (off_safe opened locked fun off => ?_)
  refine .bind (writei_meets refers locked empty fun r => ?_)
  have ends : Meets lost flost sb task p
      (iunlock ip >>= fun _ => endOp >>= fun _ => .ret r)
      ((v.setOp true).lock ip) post := by
    refine .bind (iunlock_meets refers locked ?_)
    rw [Held.unlock_lock free]
    refine .bind (endOp_meets rfl locks empty ?_)
    change Meets lost flost sb task p (.ret r) (v.setOp false) post
    rw [Held.setOp_same idle]
    exact .ret (holds _)
  dsimp only
  split
  · exact ends
  · split
    · exact .table (setOff_safe opened locked ends)
    · exact ends

theorem filewrite_meets {addr : List UInt8} {post : Option Nat → Held → Prop}
    (opened : v.opened f = some ip) (held : 0 < v.files f) (idle : v.op = false)
    (locks : v.locks = ∅) (empty : v.bufs = ∅) (holds : ∀ r, post r v) :
    Meets lost flost sb task p (filewrite devsw f addr) v post := by
  have loop : ∀ fuel i,
      Meets lost flost sb task p (filewriteLoop devsw f ip addr fuel i) v post := by
    intro fuel
    induction fuel with
    | zero => exact fun i => .ret (holds _)
    | succ fuel ih =>
        intro i
        unfold filewriteLoop
        split
        · refine .bind (filewriteChunk_meets opened idle locks empty fun r => ?_)
          split
          · exact .ret (holds _)
          · split
            · exact .panic (by decide)
            · exact ih _
        · exact .ret (holds _)
  refine .table (file_safe held fun file inode => ?_)
  rcases inode_of (inode.trans opened) with ⟨type, place⟩
  split
  · exact .ret (holds _)
  · simp only [type, place]
    exact loop _ _

/-! ## Descriptors -/

theorem slots_card (ofile : Fin NOFILE → Option (Fin NFILE)) :
    slots ofile f = (Finset.univ.filter fun fd => ofile fd = some f).card := by
  have same : (fun fd => ofile fd == some f) = fun fd => decide (ofile fd = some f) := by
    funext fd
    exact beq_eq_decide ..
  rw [slots, same, List.countP_eq_length_filter]
  rfl

theorem slots_update (ofile : Fin NOFILE → Option (Fin NFILE)) (fd : Fin NOFILE)
    (file : Option (Fin NFILE)) :
    slots (Function.update ofile fd file) f + (if ofile fd = some f then 1 else 0) =
      slots ofile f + if file = some f then 1 else 0 := by
  rw [slots_card, slots_card]
  exact card_update (fun entry : Option (Fin NFILE) => entry = some f) ofile fd file

/-- What a call knows of the file of a descriptor. -/
theorem Held.Resting.file (resting : v.Resting) {fd : Fin NOFILE} (used : v.ofile fd = some f) :
    0 < v.files f ∧ ∃ i, v.opened f = some i := by
  refine ⟨?_, Option.ne_none_iff_exists'.mp (resting.opened fd f used)⟩
  rw [resting.files]
  exact slots_mem used

/-- The current directory is referred to. -/
theorem Held.Resting.here (resting : v.Resting) {i : Fin NINODE} (cwd : v.cwd = some i) :
    v.Refers i := by
  left
  rw [resting.refs, if_pos cwd]
  exact Nat.one_pos

theorem argfd_meets {fd : Nat} {post : Option (Fin NOFILE × Fin NFILE) → Held → Prop}
    (missing : post none v) (found : ∀ fd f, v.ofile fd = some f → post (some (fd, f)) v) :
    Meets lost flost sb task p (argfd fd) v post := by
  unfold argfd
  split
  · next inside =>
      refine .table (ofile_safe ?_)
      refine .ret ?_
      cases used : v.ofile ⟨fd, inside⟩ with
      | none => exact missing
      | some f => exact found _ f used
  · exact .ret missing

theorem fdalloc_meets {post : Option (Fin NOFILE) → Held → Prop} (full : post none v)
    (found : ∀ fd, v.ofile fd = none → post (some fd) (v.setOfile fd (some f))) :
    Meets lost flost sb task p (fdalloc f) v post := by
  have loop : ∀ fds, Meets lost flost sb task p (fdallocLoop f fds) v post := by
    intro fds
    induction fds with
    | nil => exact .ret full
    | cons fd fds ih =>
        refine .table (ofile_safe ?_)
        split
        · next free => exact .table (setOfile_safe (.ret (found fd free)))
        · exact ih
  exact loop _

/-- Another descriptor for a file. -/
theorem Held.Resting.dup (resting : v.Resting) {fd : Fin NOFILE} (free : v.ofile fd = none)
    (opened : v.opened f ≠ none) :
    ((v.setOfile fd (some f)).setFiles f (v.files f + 1)).Resting where
  refs := resting.refs
  files g := by
    have count := slots_update (f := g) v.ofile fd (some f)
    have before := resting.files g
    simp only [free, reduceCtorEq, if_false, Option.some.injEq] at count
    dsimp only [Held.setFiles, Held.setOfile]
    by_cases same : g = f
    · subst same
      rw [Function.update_self]
      simp only [if_true] at count
      omega
    · rw [Function.update_of_ne same]
      simp only [if_neg (Ne.symm same)] at count
      omega
  opened fd' g used := by
    by_cases here : fd' = fd
    · have same : some f = some g := by
        rw [← used, here]
        simp [Held.setFiles, Held.setOfile]
      exact Option.some.inj same ▸ opened
    · exact resting.opened fd' g (by simpa [Held.setFiles, Held.setOfile, here] using used)
  locks := resting.locks
  bufs := resting.bufs
  op := resting.op

/-- A descriptor less. -/
theorem Held.Resting.close (resting : v.Resting) {fd : Fin NOFILE} (used : v.ofile fd = some f) :
    ((v.setOfile fd none).close f).Resting where
  refs := resting.refs
  files g := by
    have count := slots_update (f := g) v.ofile fd none
    have before := resting.files g
    simp only [used, reduceCtorEq, if_false, Option.some.injEq] at count
    dsimp only [Held.close, Held.setOfile]
    by_cases same : g = f
    · subst same
      rw [Function.update_self]
      simp only [if_true] at count
      omega
    · rw [Function.update_of_ne same]
      simp only [if_neg (Ne.symm same)] at count
      omega
  opened fd' g used' := by
    have other : fd' ≠ fd := by
      rintro rfl
      simp [Held.close, Held.setOfile] at used'
    have before : v.ofile fd' = some g := by
      simpa [Held.close, Held.setOfile, other] using used'
    have opened := resting.opened fd' g before
    dsimp only [Held.close, Held.setOfile] at used' ⊢
    by_cases same : g = f
    · -- two descriptors, of which one is left
      subst same
      have count := slots_update (f := g) v.ofile fd none
      have left := slots_mem used'
      have files := resting.files g
      simp only [used, reduceCtorEq, if_false, if_true] at count
      rw [Function.update_self, if_neg (by omega)]
      exact opened
    · rw [Function.update_of_ne same]
      exact opened
  locks := resting.locks
  bufs := resting.bufs
  op := resting.op

/-! ## Calls on descriptors -/

theorem sys_dup_meets {fd : Nat} (resting : v.Resting) :
    Meets lost flost sb task p (sys_dup fd) v fun _ w => w.Resting := by
  refine .bind (argfd_meets (.ret resting) fun fd f used => ?_)
  rcases resting.file used with ⟨held, i, opened⟩
  refine .bind (fdalloc_meets (.ret resting) fun fd free => ?_)
  have some : v.opened f ≠ none := by simp [opened]
  refine .bind (.table (filedup_safe held some ?_))
  exact .ret (.ret (resting.dup free some))

theorem sys_read_meets {fd n : Nat} (resting : v.Resting) :
    Meets lost flost sb task p (sys_read devsw fd n) v fun _ w => w.Resting := by
  refine .bind (argfd_meets (.ret resting) fun fd f used => ?_)
  rcases resting.file used with ⟨held, i, opened⟩
  exact fileread_meets opened held resting.bufs fun _ => resting

theorem sys_write_meets {fd : Nat} {addr : List UInt8} (resting : v.Resting) :
    Meets lost flost sb task p (sys_write devsw fd addr) v fun _ w => w.Resting := by
  refine .bind (argfd_meets (.ret resting) fun fd f used => ?_)
  rcases resting.file used with ⟨held, i, opened⟩
  exact filewrite_meets opened held resting.op resting.locks resting.bufs fun _ => resting

theorem sys_writev_meets {fd : Nat} {iov : List (List UInt8)} (resting : v.Resting) :
    Meets lost flost sb task p (sys_writev devsw fd iov) v fun _ w => w.Resting := by
  refine .bind (argfd_meets (.ret resting) fun fd f used => ?_)
  rcases resting.file used with ⟨held, i, opened⟩
  have loop : ∀ iov tot,
      Meets lost flost sb task p (writevLoop devsw f iov tot) v fun _ w => w.Resting := by
    intro iov
    induction iov with
    | nil => exact fun tot => .ret resting
    | cons addr iov ih =>
        intro tot
        refine .bind (filewrite_meets opened held resting.op resting.locks resting.bufs
          fun r => ?_)
        cases r with
        | none => exact ih _
        | some r => exact ih _
  exact loop _ _

theorem sys_close_meets {fd : Nat} (resting : v.Resting) :
    Meets lost flost sb task p (sys_close fd) v fun _ w => w.Resting := by
  refine .bind (argfd_meets (.ret resting) fun fd f used => ?_)
  have held := (resting.file used).1
  refine .table (setOfile_safe ?_)
  refine .bind (fileclose_meets held resting.bufs (fun _ => ⟨resting.op, resting.locks⟩) ?_)
  exact .ret (resting.close used)

theorem sys_fstat_meets {fd : Nat} (resting : v.Resting) :
    Meets lost flost sb task p (sys_fstat fd) v fun _ w => w.Resting := by
  refine .bind (argfd_meets (.ret resting) fun fd f used => ?_)
  rcases resting.file used with ⟨held, i, opened⟩
  exact filestat_meets opened held resting.bufs fun _ => resting

/-! ## Calls on paths -/

/-- The end of an operation in which everything was given back. -/
theorem ends_meets {α : Type} {value : α} (resting : v.Resting) :
    Meets lost flost sb task p (endOp >>= fun _ => .ret value) (v.setOp true)
      fun _ w => w.Resting := by
  refine .bind (endOp_meets rfl resting.locks resting.bufs ?_)
  change Meets lost flost sb task p (.ret value) (v.setOp false) _
  rw [Held.setOp_same resting.op]
  exact .ret resting

/-- The end of an operation on a locked inode. -/
theorem put_meets {α : Type} {value : α} (resting : v.Resting) :
    Meets lost flost sb task p
      (iunlockput ip >>= fun _ => endOp >>= fun _ => .ret value)
      (((v.setOp true).inc ip).lock ip) fun _ w => w.Resting := by
  have free : ip ∉ ((v.setOp true).inc ip).locks := by
    change ip ∉ v.locks
    rw [resting.locks]
    exact Set.notMem_empty ip
  have held : 0 < (((v.setOp true).inc ip).lock ip).refs ip := Held.inc_self
  refine .bind (iunlockput_meets held (Set.mem_insert ip _) resting.bufs ?_)
  rw [Held.unlock_lock free, Held.dec_inc]
  exact ends_meets resting

theorem sys_fstatat_meets {path : List UInt8} (resting : v.Resting) :
    Meets lost flost sb task p (sys_fstatat devsw path) v fun _ w => w.Resting := by
  refine .bind (beginOp_meets resting.op resting.locks resting.bufs ?_)
  refine .bind (namei_meets resting.bufs (fun _ => resting.here) (ends_meets resting) fun ip => ?_)
  refine .bind (ilock_meets Held.inc_refers resting.bufs fun _ => ?_)
  refine .bind (stati_meets (Set.mem_insert ip _) fun st => ?_)
  exact put_meets resting

/-- The new inode is locked and referred to, and its directory no longer. -/
theorem createNew_meets {name : List UInt8} {type major minor : UInt16}
    {post : Fin NINODE → Held → Prop} (free : dp ∉ v.locks) (empty : v.bufs = ∅)
    (holds : ∀ ip, post ip ((v.inc ip).lock ip)) :
    Meets lost flost sb task p (createNew devsw sb dp name type major minor)
      ((v.inc dp).lock dp) post := by
  have few : v.bufs.Subsingleton := empty ▸ Set.subsingleton_empty
  refine .bind (ialloc_meets empty fun ip => ?_)
  refine .bind (ilock_meets Held.inc_refers empty fun fresh => ?_)
  have other : ip ≠ dp := by
    rintro rfl
    exact fresh (Set.mem_insert ip _)
  have mine : ip ∈ ((((v.inc dp).lock dp).inc ip).lock ip).locks := Set.mem_insert ip _
  have parent : dp ∈ ((((v.inc dp).lock dp).inc ip).lock ip).locks :=
    Set.mem_insert_of_mem ip (Set.mem_insert dp _)
  have refers : ((((v.inc dp).lock dp).inc ip).lock ip).Refers ip := .inl Held.inc_self
  have held : 0 < ((((v.inc dp).lock dp).inc ip).lock ip).refs dp := by
    have one : 0 < ((v.inc dp).lock dp).refs dp := Held.inc_self
    exact Held.inc_pos one
  have passed : (((((v.inc dp).lock dp).inc ip).lock ip).unlock dp).dec dp =
      (v.inc ip).lock ip := by
    have free' : dp ∉ ((v.inc dp).inc ip).locks := free
    change (((((v.inc dp).inc ip).lock dp).lock ip).unlock dp).dec dp = _
    rw [Held.unlock_other free' other]
    change (((v.inc dp).inc ip).dec dp).lock ip = _
    rw [Held.inc_comm, Held.dec_inc]
  refine .act (fields_restores mine) fun copy => ?_
  refine .act (setFields_restores mine) fun _ => ?_
  refine .act (iupdate_restores mine few) fun _ => ?_
  refine .table (inumOf_safe fun inum => ?_)
  have ends : Meets lost flost sb task p
      (dirlink devsw dp name inum >>= fun linked =>
        if linked = true then iunlockput dp >>= fun _ => .ret ip
        else .panic "create: dirlink\n")
      ((((v.inc dp).lock dp).inc ip).lock ip) post := by
    refine .bind (dirlink_meets (.inl held) parent empty fun linked => ?_)
    split
    · refine .bind (iunlockput_meets held parent empty ?_)
      rw [passed]
      exact .ret (holds ip)
    · exact .panic (by decide)
  dsimp only
  split
  · refine .act (fields_restores parent) fun dir => ?_
    refine .act (setFields_restores parent) fun _ => ?_
    refine .act (iupdate_restores parent few) fun _ => ?_
    refine .table (inumOf_safe fun above => ?_)
    refine .bind (dirlink_meets refers mine empty fun dot => ?_)
    split
    · exact .panic (by decide)
    · refine .bind (dirlink_meets refers mine empty fun dotdot => ?_)
      split
      · exact .panic (by decide)
      · exact ends
  · exact ends

theorem create_meets {path : List UInt8} {type major minor : UInt16}
    {post : Option (Fin NINODE) → Held → Prop} (locks : v.locks = ∅) (empty : v.bufs = ∅)
    (here : ∀ i, v.cwd = some i → v.Refers i) (missing : post none v)
    (holds : ∀ ip, post (some ip) ((v.inc ip).lock ip)) :
    Meets lost flost sb task p (create devsw sb path type major minor) v post := by
  have free : ∀ (i : Fin NINODE), i ∉ v.locks := by
    intro i
    rw [locks]
    exact Set.notMem_empty i
  refine .bind (namex_meets empty here (.ret missing) fun dp name => ?_)
  refine .bind (ilock_meets Held.inc_refers empty fun _ => ?_)
  have parent : dp ∈ ((v.inc dp).lock dp).locks := Set.mem_insert dp _
  have held : 0 < ((v.inc dp).lock dp).refs dp := Held.inc_self
  refine .bind (dirlookup_meets (.inl held) parent empty ?_ fun ip off => ?_)
  · refine .bind (createNew_meets (free dp) empty fun ip => ?_)
    exact .ret (holds ip)
  · refine .bind (iunlockput_meets (Held.inc_pos held) parent empty ?_)
    have passed : ((((v.inc dp).lock dp).inc ip).unlock dp).dec dp = v.inc ip := by
      have free' : dp ∉ ((v.inc dp).inc ip).locks := free dp
      change ((((v.inc dp).inc ip).lock dp).unlock dp).dec dp = _
      rw [Held.unlock_lock free', Held.inc_comm, Held.dec_inc]
    rw [passed]
    refine .bind (ilock_meets Held.inc_refers empty fun free' => ?_)
    have locked : ip ∈ ((v.inc ip).lock ip).locks := Set.mem_insert ip _
    refine .act (fields_restores locked) fun copy => ?_
    split
    · exact .ret (holds ip)
    · refine .bind (iunlockput_meets Held.inc_self locked empty ?_)
      rw [Held.unlock_lock free', Held.dec_inc]
      exact .ret missing

theorem openInode_meets {path : List UInt8} {omode : OMode}
    {post : Option (Fin NINODE) → Held → Prop} (locks : v.locks = ∅) (empty : v.bufs = ∅)
    (here : ∀ i, v.cwd = some i → v.Refers i) (missing : post none v)
    (holds : ∀ ip, post (some ip) ((v.inc ip).lock ip)) :
    Meets lost flost sb task p (openInode devsw sb path omode) v post := by
  unfold openInode
  split
  · exact create_meets locks empty here missing holds
  · refine .bind (namei_meets empty here (.ret missing) fun ip => ?_)
    refine .bind (ilock_meets Held.inc_refers empty fun free => ?_)
    have locked : ip ∈ ((v.inc ip).lock ip).locks := Set.mem_insert ip _
    refine .act (fields_restores locked) fun copy => ?_
    split
    · refine .bind (iunlockput_meets Held.inc_self locked empty ?_)
      rw [Held.unlock_lock free, Held.dec_inc]
      exact .ret missing
    · exact .ret (holds ip)

/-- A new descriptor, and its new file. -/
theorem Held.Resting.opens (resting : v.Resting) {fd : Fin NOFILE} (free : v.ofile fd = none)
    (unused : v.files f = 0) :
    (((v.setFiles f 1).setOfile fd (some f)).setOpened f (some ip)).Resting where
  refs := resting.refs
  files g := by
    have count := slots_update (f := g) v.ofile fd (some f)
    have before := resting.files g
    simp only [free, reduceCtorEq, if_false, Option.some.injEq] at count
    dsimp only [Held.setFiles, Held.setOfile, Held.setOpened]
    by_cases same : g = f
    · subst same
      rw [Function.update_self]
      simp only [if_true] at count
      omega
    · rw [Function.update_of_ne same]
      simp only [if_neg (Ne.symm same)] at count
      omega
  opened fd' g used := by
    dsimp only [Held.setOpened]
    by_cases same : g = f
    · simp [same]
    · have other : fd' ≠ fd := by
        rintro rfl
        simp [Held.setOpened, Held.setOfile, Ne.symm same] at used
      rw [Function.update_of_ne same]
      exact resting.opened fd' g
        (by simpa [Held.setOpened, Held.setOfile, Held.setFiles, other] using used)
  locks := resting.locks
  bufs := resting.bufs
  op := resting.op

/-- A file that is allocated and closed again. -/
theorem close_fresh (unused : v.files f = 0) (unopened : v.opened f = none) :
    (v.setFiles f 1).close f = v := by
  have files : Function.update v.files f 0 = v.files := by
    rw [← unused, Function.update_eq_self]
  have opened : Function.update v.opened f none = v.opened := by
    rw [← unopened, Function.update_eq_self]
  simp [Held.close, Held.setFiles, files, opened]

theorem sys_openat_meets {path : List UInt8} {omode : OMode} (resting : v.Resting) :
    Meets lost flost sb task p (sys_openat devsw sb path omode) v fun _ w => w.Resting := by
  unfold sys_openat
  split
  · exact .ret resting
  · refine .bind (beginOp_meets resting.op resting.locks resting.bufs ?_)
    refine .bind (openInode_meets resting.locks resting.bufs (fun _ => resting.here)
      (ends_meets resting) fun ip => ?_)
    refine .bind (filealloc_safe (put_meets resting) fun f unused unopened => ?_)
    have unused' : v.files f = 0 := unused
    have one : 0 < ((((v.setOp true).inc ip).lock ip).setFiles f 1).files f := by
      simp [Held.setFiles]
    refine .bind (fdalloc_meets ?_ fun fd free => ?_)
    · refine .bind (fileclose_meets one resting.bufs (fun opened => absurd unopened opened) ?_)
      rw [close_fresh unused unopened]
      exact put_meets resting
    · have locked : ip ∉ ((((v.setOp true).inc ip).setFiles f 1).setOfile fd (some f)).locks := by
        change ip ∉ v.locks
        rw [resting.locks]
        exact Set.notMem_empty ip
      change Meets lost flost sb task p _
        (((((v.setOp true).inc ip).setFiles f 1).setOfile fd (some f)).lock ip) _
      refine .bind (iunlock_meets (.inl Held.inc_self) (Set.mem_insert ip _) ?_)
      rw [Held.unlock_lock locked]
      refine .bind (endOp_meets rfl resting.locks resting.bufs ?_)
      refine .table (openFile_safe unopened one Held.inc_self ?_)
      refine .ret ?_
      change (((((v.setOp false).inc ip).dec ip).setFiles f 1).setOfile fd (some f)).setOpened f
        (some ip) |>.Resting
      rw [Held.dec_inc, Held.setOp_same resting.op]
      exact resting.opens free unused'

theorem sys_mkdirat_meets {path : List UInt8} (resting : v.Resting) :
    Meets lost flost sb task p (sys_mkdirat devsw sb path) v fun _ w => w.Resting := by
  refine .bind (beginOp_meets resting.op resting.locks resting.bufs ?_)
  refine .bind (create_meets resting.locks resting.bufs (fun _ => resting.here)
    (ends_meets resting) fun ip => ?_)
  exact put_meets resting

theorem sys_mknodat_meets {path : List UInt8} {major minor : UInt16} (resting : v.Resting) :
    Meets lost flost sb task p (sys_mknodat devsw sb path major minor) v
      fun _ w => w.Resting := by
  refine .bind (beginOp_meets resting.op resting.locks resting.bufs ?_)
  refine .bind (create_meets resting.locks resting.bufs (fun _ => resting.here)
    (ends_meets resting) fun ip => ?_)
  exact put_meets resting

/-- The reference to the old current directory is dropped, and the new one kept. -/
theorem Held.Resting.chdir (resting : v.Resting) {old : Fin NINODE} (here : v.cwd = some old) :
    ({ (v.inc ip).dec old with cwd := some ip } : Held).Resting where
  refs i := by
    have before := resting.refs i
    have one := resting.refs old
    rw [if_pos here] at one
    rw [here] at before
    dsimp only [Held.inc, Held.dec]
    by_cases same : old = ip
    · subst same
      simpa using before
    · rw [Function.update_of_ne same, one]
      by_cases this : i = old
      · subst this
        simp [Ne.symm same]
      · rw [Function.update_of_ne this]
        by_cases that : i = ip
        · subst that
          simp only [Option.some.injEq, if_neg same] at before
          simp [before]
        · simp only [Option.some.injEq, if_neg (Ne.symm this)] at before
          simp [Function.update_of_ne that, before, Ne.symm that]
  files := resting.files
  opened := resting.opened
  locks := resting.locks
  bufs := resting.bufs
  op := resting.op

theorem sys_chdir_meets {path : List UInt8} (resting : v.Resting) :
    Meets lost flost sb task p (sys_chdir devsw path) v fun _ w => w.Resting := by
  refine .bind (beginOp_meets resting.op resting.locks resting.bufs ?_)
  refine .bind (namei_meets resting.bufs (fun _ => resting.here) (ends_meets resting) fun ip => ?_)
  refine .bind (ilock_meets Held.inc_refers resting.bufs fun free => ?_)
  refine .act (fields_restores (Set.mem_insert ip _)) fun copy => ?_
  split
  · exact put_meets resting
  · refine .bind (iunlock_meets (.inl Held.inc_self) (Set.mem_insert ip _) ?_)
    rw [Held.unlock_lock free]
    refine .table (cwd_safe fun old here => ?_)
    have held : 0 < ((v.setOp true).inc ip).refs old := by
      have one := resting.refs old
      rw [if_pos (show v.cwd = some old from here)] at one
      exact Held.inc_pos (show 0 < (v.setOp true).refs old from one ▸ Nat.one_pos)
    refine .bind (iput_meets held resting.bufs ?_)
    refine .bind (endOp_meets rfl resting.locks resting.bufs ?_)
    refine .table (setCwd_safe (.ret ?_))
    change ({ ((v.setOp false).inc ip).dec old with cwd := some ip } : Held).Resting
    rw [Held.setOp_same resting.op]
    exact resting.chdir here

theorem reads_meets {post : Unit → Held → Prop} (refers : v.Refers ip) (locked : ip ∈ v.locks)
    (empty : v.bufs = ∅) (reads : Reads) (holds : post () v) :
    Meets lost flost sb task p (reads.program devsw ip) v post := by
  induction reads with
  | done => exact .ret holds
  | read off n next ih => exact .bind (readi_meets refers locked empty fun bytes => ih bytes)

theorem execve_meets {path : List UInt8} {reads : Reads} (resting : v.Resting) :
    Meets lost flost sb task p (execve devsw path reads) v fun _ w => w.Resting := by
  refine .bind (beginOp_meets resting.op resting.locks resting.bufs ?_)
  refine .bind (namei_meets resting.bufs (fun _ => resting.here) (ends_meets resting) fun ip => ?_)
  refine .bind (ilock_meets Held.inc_refers resting.bufs fun free => ?_)
  have refers : (((v.setOp true).inc ip).lock ip).Refers ip := .inl Held.inc_self
  refine .bind (reads_meets refers (Set.mem_insert ip _) resting.bufs reads ?_)
  exact put_meets resting

/-! ## The beginning and the end of a process -/

/-- One more reference for each of some descriptors. -/
def Held.dup (v : Held) (fds : List (Fin NOFILE)) : Held :=
  { v with files := fun f => v.files f + fds.countP fun fd => v.ofile fd == some f }

theorem Held.dup_none {fd : Fin NOFILE} {fds : List (Fin NOFILE)} (unused : v.ofile fd = none) :
    v.dup (fd :: fds) = v.dup fds := by
  simp [Held.dup, unused]

theorem Held.dup_some {fd : Fin NOFILE} {fds : List (Fin NOFILE)} (used : v.ofile fd = some f) :
    v.dup (fd :: fds) = (v.setFiles f (v.files f + 1)).dup fds := by
  unfold Held.dup Held.setFiles
  congr 1
  funext g
  rw [List.countP_cons, used]
  by_cases same : g = f
  · subst same
    simp only [beq_self_eq_true, if_true, Function.update_self]
    omega
  · simp [Function.update_of_ne same, Ne.symm same]

theorem dupAll_meets {post : Unit → Held → Prop} (fds : List (Fin NOFILE))
    (used : ∀ fd f, v.ofile fd = some f → 0 < v.files f ∧ v.opened f ≠ none)
    (holds : post () (v.dup fds)) : Meets lost flost sb task p (dupAll fds) v post := by
  induction fds generalizing v with
  | nil => exact .ret holds
  | cons fd fds ih =>
      refine .table (ofile_safe ?_)
      cases file : v.ofile fd with
      | none =>
          rw [Held.dup_none file] at holds
          exact ih used holds
      | some f =>
          rw [Held.dup_some file] at holds
          rcases used fd f file with ⟨held, opened⟩
          refine .bind (.table (filedup_safe held opened (.ret (ih ?_ holds))))
          intro fd' g other
          refine ⟨?_, (used fd' g other).2⟩
          change 0 < Function.update v.files f (v.files f + 1) g
          by_cases same : g = f
          · simp [same]
          · rw [Function.update_of_ne same]
            exact (used fd' g other).1

/-- The references for the child go to it, and the parent rests again. -/
theorem Held.Resting.give (resting : v.Resting) {cwd : Fin NINODE} (here : v.cwd = some cwd) :
    ((v.dup (List.finRange NOFILE)).inc cwd).Duplicated ∧
      ((v.dup (List.finRange NOFILE)).inc cwd).give.Resting := by
  have count : ∀ f, v.files f + slots v.ofile f - slots v.ofile f = v.files f :=
    fun f => Nat.add_sub_cancel ..
  constructor
  · constructor
    · exact fun f => Nat.le_add_left ..
    · intro i same
      obtain rfl : cwd = i := Option.some.inj (here.symm.trans same)
      exact Held.inc_self
    · exact resting.opened
  · constructor
    · intro i
      have before := resting.refs i
      change Function.update v.refs cwd (v.refs cwd + 1) i - (if v.cwd = some i then 1 else 0) =
        if v.cwd = some i then 1 else 0
      rw [here] at before ⊢
      by_cases same : i = cwd
      · subst same
        simpa using before
      · simpa [Function.update_of_ne same, Ne.symm same] using before
    · exact fun f => (count f).trans (resting.files f)
    · intro fd f used
      have held := (resting.file used).1
      change (if 0 < v.files f + slots v.ofile f - slots v.ofile f then v.opened f else none) ≠
        none
      rw [count, if_pos held]
      exact resting.opened fd f used
    · exact resting.locks
    · exact resting.bufs
    · exact resting.op

theorem fork_meets {child : Pid} (resting : v.Resting) :
    Meets lost flost sb task p (fork child) v fun _ w => w.Resting := by
  have used : ∀ fd f, v.ofile fd = some f → 0 < v.files f ∧ v.opened f ≠ none :=
    fun fd f used => ⟨(resting.file used).1, resting.opened fd f used⟩
  refine .bind (dupAll_meets _ used ?_)
  refine .table (cwd_safe fun cwd here => ?_)
  refine .bind (idup_meets (resting.here here) ?_)
  rcases resting.give here with ⟨both, rests⟩
  exact .table (start_safe both (.ret rests))

theorem Held.Resting.leave (resting : v.Resting) {old : Fin NINODE} (here : v.cwd = some old) :
    ({ v.dec old with cwd := none } : Held).Resting where
  refs i := by
    have before := resting.refs i
    have one := resting.refs old
    rw [if_pos here] at one
    dsimp only [Held.dec]
    by_cases same : i = old
    · simp [same, one]
    · rw [here] at before
      simp only [Option.some.injEq, if_neg (Ne.symm same)] at before
      simp [Function.update_of_ne same, before]
  files := resting.files
  opened := resting.opened
  locks := resting.locks
  bufs := resting.bufs
  op := resting.op

theorem exit_meets (resting : v.Resting) :
    Meets lost flost sb task p exit v fun _ w => w.Resting := by
  have closes : ∀ (fds : List (Fin NOFILE)) (v : Held), v.Resting →
      Meets lost flost sb task p (closeAll fds) v fun _ w => w.Resting := by
    intro fds
    induction fds with
    | nil => exact fun v resting => .ret resting
    | cons fd fds ih =>
        intro v resting
        refine .table (ofile_safe ?_)
        cases used : v.ofile fd with
        | none => exact ih v resting
        | some f =>
            refine .bind (fileclose_meets (resting.file used).1 resting.bufs
              (fun _ => ⟨resting.op, resting.locks⟩) ?_)
            refine .table (setOfile_safe ?_)
            exact ih _ (resting.close used)
  refine .bind (Views.Safe.mono (closes _ v resting) ?_)
  intro _ w resting
  refine .bind (beginOp_meets resting.op resting.locks resting.bufs ?_)
  refine .table (cwd_safe fun old here => ?_)
  have held : 0 < (w.setOp true).refs old := by
    have one := resting.refs old
    rw [if_pos (show w.cwd = some old from here)] at one
    exact one ▸ Nat.one_pos
  refine .bind (iput_meets held resting.bufs ?_)
  refine .bind (endOp_meets rfl resting.locks resting.bufs ?_)
  refine setCwd_safe ?_
  change ({ (w.setOp false).dec old with cwd := none } : Held).Resting
  rw [Held.setOp_same resting.op]
  exact resting.leave here

end Code

end PiKernel.Fs
