import PiKernel.Fs.Duties

/-!
# Blocks and inodes leave nothing behind

Every program of the lower half of `fs.c` ends with what its process held when it began, and
meets its duties on the way.  No more than two buffers are held at once.
-/

namespace PiKernel.Fs

open PiKernel.Conc

variable {Pid : Type} [DecidableEq Pid] [Fintype Pid]

/-- The program ends with what the process held. -/
def Restores {α : Type} (lost : Fin NINODE → Nat) (flost : Fin NFILE → Nat) (sb : Superblock)
    (task : Tables Pid → Pid → Prog (Act Pid) Unit → Prop) (p : Pid) (v : Held)
    (program : Prog (Low Pid) α) : Prop :=
  (duties lost flost sb task).Safe p program v fun _ w => w = v

section Rules

variable
    {lost : Fin NINODE → Nat}
    {flost : Fin NFILE → Nat}
    {sb : Superblock}
    {task : Tables Pid → Pid → Prog (Act Pid) Unit → Prop}
    {p : Pid}
    {v : Held}
    {α β : Type}

theorem Restores.before {program : Prog (Low Pid) α} {next : α → Prog (Low Pid) β}
    {post : β → Held → Prop} (first : Restores lost flost sb task p v program)
    (second : ∀ value, (duties lost flost sb task).Safe p (next value) v post) :
    (duties lost flost sb task).Safe p (program >>= next) v post := by
  refine Views.Safe.seq first ?_
  rintro value w rfl
  exact second value

theorem Restores.ret (value : α) : Restores lost flost sb task p v (.ret value) :=
  Views.Safe.ret rfl

theorem Restores.bind {program : Prog (Low Pid) α} {next : α → Prog (Low Pid) β}
    (first : Restores lost flost sb task p v program)
    (second : ∀ value, Restores lost flost sb task p v (next value)) :
    Restores lost flost sb task p v (program >>= next) :=
  first.before second

/-- A panic that does not concern references, locks or open files. -/
theorem panic_safe {message : String} {post : α → Held → Prop} (other : message ∉ misuse) :
    (duties lost flost sb task).Safe p (.panic message : Prog (Low Pid) α) v post :=
  Views.Safe.panic other

theorem Restores.panic {message : String} (other : message ∉ misuse) :
    Restores lost flost sb task p v (.panic message : Prog (Low Pid) α) :=
  panic_safe other

theorem Restores.forM {ι : Type} {program : ι → Prog (Low Pid) PUnit} (items : List ι)
    (each : ∀ item, Restores lost flost sb task p v (program item)) :
    Restores lost flost sb task p v (items.forM program) := by
  induction items with
  | nil => exact .ret _
  | cons item items ih => exact (each item).bind fun _ => ih

theorem Restores.silent {action : BlockAct α} (silent : action.Silent)
    (allowed : Allowed (.right action : Low Pid α) v) :
    Restores lost flost sb task p v (block action) :=
  silent_safe silent allowed fun _ => rfl

/-- A buffer around a program. -/
theorem Restores.buffer {b : Nat} {program : Prog (Low Pid) α} (few : v.bufs.Subsingleton)
    (inside : b ∉ v.bufs → (duties lost flost sb task).Safe p program (v.take b)
      fun _ w => w = v) :
    Restores lost flost sb task p v (block (.bread b) >>= fun _ => program) :=
  Views.Safe.bind (bread_safe few inside)

/-- The end of the work on a buffer. -/
theorem release {b : Nat} {next : Prog (Low Pid) α} {post : α → Held → Prop}
    (free : b ∉ v.bufs) (later : (duties lost flost sb task).Safe p next v post) :
    (duties lost flost sb task).Safe p (block (.brelse b) >>= fun _ => next) (v.take b) post := by
  refine Views.Safe.bind (brelse_safe (Set.mem_insert b v.bufs) ?_)
  rw [Held.drop_take free]
  exact later

theorem release_last {b : Nat} (free : b ∉ v.bufs) :
    (duties lost flost sb task).Safe p (block (.brelse b)) (v.take b) fun _ w => w = v :=
  brelse_safe (Set.mem_insert b v.bufs) (Held.drop_take free)

end Rules

section Code

variable
    {lost : Fin NINODE → Nat}
    {flost : Fin NFILE → Nat}
    {sb : Superblock}
    {task : Tables Pid → Pid → Prog (Act Pid) Unit → Prop}
    {p : Pid}
    {v : Held}
    {b : Nat}
    {i : Fin NINODE}

/-! ## Blocks -/

theorem logWrite_restores (held : b ∈ v.bufs) :
    Restores lost flost sb task p v (logWrite b) := by
  have read : Restores lost flost sb task p v (block .readLog) := .silent trivial trivial
  refine read.bind fun log => ?_
  split
  · exact .panic (by decide)
  · exact .silent trivial held

theorem bzero_restores (few : v.bufs.Subsingleton) :
    Restores lost flost sb task p v (bzero b) := by
  refine .buffer few fun free => ?_
  have held : b ∈ (v.take b).bufs := Set.mem_insert b v.bufs
  refine Restores.before (.silent trivial held) fun _ => ?_
  refine (logWrite_restores held).before fun _ => ?_
  exact release_last free

theorem ballocLoop_restores (few : v.bufs.Subsingleton) (count : Nat) :
    Restores lost flost sb task p v (ballocLoop sb count b) := by
  induction count generalizing b with
  | zero => exact .panic (by decide)
  | succ count ih =>
      refine .buffer few fun free => ?_
      have held : sb.BBLOCK b ∈ (v.take (sb.BBLOCK b)).bufs := Set.mem_insert _ v.bufs
      refine Restores.before (.silent trivial held) fun data => ?_
      split
      · refine Restores.before (.silent trivial held) fun _ => ?_
        refine (logWrite_restores held).before fun _ => ?_
        refine release free ?_
        exact (bzero_restores few).bind fun _ => .ret _
      · exact release free ih

theorem balloc_restores (few : v.bufs.Subsingleton) :
    Restores lost flost sb task p v (balloc sb) :=
  ballocLoop_restores few _

theorem bfree_restores (few : v.bufs.Subsingleton) :
    Restores lost flost sb task p v (bfree sb b) := by
  refine .buffer few fun free => ?_
  have held : sb.BBLOCK b ∈ (v.take (sb.BBLOCK b)).bufs := Set.mem_insert _ v.bufs
  refine Restores.before (.silent trivial held) fun data => ?_
  dsimp only
  split
  · exact panic_safe (by decide)
  · refine Restores.before (.silent trivial held) fun _ => ?_
    refine (logWrite_restores held).before fun _ => ?_
    exact release_last free

/-! ## Inodes on disk -/

theorem inumOf_restores :
    Restores lost flost sb task p v (Prog.perform (.left (.inumOf i))) :=
  inumOf_safe fun _ => rfl

theorem iupdate_restores (locked : i ∈ v.locks) (few : v.bufs.Subsingleton) :
    Restores lost flost sb task p v (iupdate sb i) := by
  refine inumOf_restores.bind fun inum => ?_
  refine .buffer few fun free => ?_
  have held : sb.IBLOCK inum ∈ (v.take (sb.IBLOCK inum)).bufs := Set.mem_insert _ v.bufs
  refine Restores.before (.silent trivial held) fun data => ?_
  refine Restores.before (.silent trivial locked) fun d => ?_
  refine Restores.before (.silent trivial held) fun _ => ?_
  refine (logWrite_restores held).before fun _ => ?_
  exact release_last free

theorem iload_restores (locked : i ∈ v.locks) (few : v.bufs.Subsingleton) :
    Restores lost flost sb task p v (iload sb i) := by
  refine inumOf_restores.bind fun inum => ?_
  refine .buffer few fun free => ?_
  have held : sb.IBLOCK inum ∈ (v.take (sb.IBLOCK inum)).bufs := Set.mem_insert _ v.bufs
  refine Restores.before (.silent trivial held) fun data => ?_
  refine Restores.before (.silent trivial locked) fun d => ?_
  exact release_last free

theorem itake_restores {inum : Nat} {type : UInt16} (few : v.bufs.Subsingleton) :
    Restores lost flost sb task p v (itake sb inum type) := by
  refine .buffer few fun free => ?_
  have held : sb.IBLOCK inum ∈ (v.take (sb.IBLOCK inum)).bufs := Set.mem_insert _ v.bufs
  refine Restores.before (.silent trivial held) fun data => ?_
  split
  · refine Restores.before (.silent trivial held) fun _ => ?_
    refine (logWrite_restores held).before fun _ => ?_
    exact release free (Views.Safe.ret rfl)
  · exact release free (Views.Safe.ret rfl)

/-! ## Blocks of an inode -/

theorem take_few (empty : v.bufs = ∅) : (v.take b).bufs.Subsingleton := by
  simp [Held.take, empty]

theorem assignAddr_restores {n a : Nat} (locked : i ∈ v.locks) :
    Restores lost flost sb task p v (assignAddr i n a) := by
  refine Restores.bind (.silent trivial locked) fun d => ?_
  exact .silent trivial locked

theorem bmapEntry_restores {bn : Nat} (empty : v.bufs = ∅) :
    Restores lost flost sb task p v (bmapEntry sb b bn) := by
  refine .buffer (empty ▸ Set.subsingleton_empty) fun free => ?_
  have held : b ∈ (v.take b).bufs := Set.mem_insert b v.bufs
  refine Restores.before (.silent trivial held) fun a => ?_
  split
  · refine (balloc_restores (take_few empty)).before fun found => ?_
    refine Restores.before (.silent trivial held) fun a => ?_
    refine Restores.before (.silent trivial held) fun _ => ?_
    refine (logWrite_restores held).before fun _ => ?_
    exact release free (Views.Safe.ret rfl)
  · exact release free (Views.Safe.ret rfl)

theorem bmapAddr_restores {n : Nat} (locked : i ∈ v.locks) (few : v.bufs.Subsingleton) :
    Restores lost flost sb task p v (bmapAddr sb i n) := by
  refine Restores.bind (.silent trivial locked) fun d => ?_
  split
  · refine (balloc_restores few).bind fun addr => ?_
    exact (assignAddr_restores locked).bind fun _ => .ret _
  · exact .ret _

theorem bmap_restores {bn : Nat} (locked : i ∈ v.locks) (empty : v.bufs = ∅) :
    Restores lost flost sb task p v (bmap sb i bn) := by
  have few : v.bufs.Subsingleton := empty ▸ Set.subsingleton_empty
  unfold bmap
  split
  · exact bmapAddr_restores locked few
  · split
    · exact (bmapAddr_restores locked few).bind fun addr => bmapEntry_restores empty
    · exact .panic (by decide)

theorem itrunc_restores (locked : i ∈ v.locks) (empty : v.bufs = ∅) :
    Restores lost flost sb task p v (itrunc sb i) := by
  have few : v.bufs.Subsingleton := empty ▸ Set.subsingleton_empty
  have copy : Restores lost flost sb task p v (block (.inode i)) := .silent trivial locked
  have direct : Restores lost flost sb task p v (itruncDirect sb i) := by
    refine .forM _ fun n => copy.bind fun d => ?_
    split
    · exact (bfree_restores few).bind fun _ => assignAddr_restores locked
    · exact .ret _
  have indirect : Restores lost flost sb task p v (itruncIndirect sb i) := by
    refine copy.bind fun d => ?_
    split
    · refine .buffer few fun free => ?_
      have held : d.addr NDIRECT ∈ (v.take (d.addr NDIRECT)).bufs := Set.mem_insert _ v.bufs
      refine Restores.before (.silent trivial held) fun a => ?_
      have entries : Restores lost flost sb task p (v.take (d.addr NDIRECT))
          (itruncEntries sb a) := by
        refine .forM _ fun j => ?_
        split
        · exact bfree_restores (take_few empty)
        · exact .ret _
      refine entries.before fun _ => release free ?_
      exact (bfree_restores few).bind fun _ => assignAddr_restores locked
    · exact .ret _
  refine direct.bind fun _ => indirect.bind fun _ => copy.bind fun d => ?_
  refine Restores.bind (.silent trivial locked) fun _ => ?_
  exact iupdate_restores locked few

theorem ifree_restores (locked : i ∈ v.locks) (empty : v.bufs = ∅) :
    Restores lost flost sb task p v (ifree sb i) := by
  refine (itrunc_restores locked empty).bind fun _ => ?_
  refine Restores.bind (.silent trivial locked) fun d => ?_
  refine Restores.bind (.silent trivial locked) fun _ => ?_
  exact iupdate_restores locked (empty ▸ Set.subsingleton_empty)

/-! ## Contents -/

theorem readLoop_restores (locked : i ∈ v.locks) (empty : v.bufs = ∅) (count off n : Nat) :
    Restores lost flost sb task p v (readLoop sb i count off n) := by
  induction count generalizing off n with
  | zero => exact .ret _
  | succ count ih =>
      unfold readLoop
      split
      · exact .ret _
      · refine (bmap_restores locked empty).bind fun b => ?_
        refine .buffer (empty ▸ Set.subsingleton_empty) fun free => ?_
        have held : b ∈ (v.take b).bufs := Set.mem_insert b v.bufs
        refine Restores.before (.silent trivial held) fun data => ?_
        refine release free ?_
        exact (ih _ _).bind fun rest => .ret _

theorem readBytes_restores {off n : Nat} (locked : i ∈ v.locks) (empty : v.bufs = ∅) :
    Restores lost flost sb task p v (readBytes sb i off n) := by
  refine Restores.bind (.silent trivial locked) fun d => ?_
  split
  · exact .ret _
  · exact (readLoop_restores locked empty _ _ _).bind fun bytes => .ret _

theorem writeLoop_restores (locked : i ∈ v.locks) (empty : v.bufs = ∅) (count off : Nat)
    (src : List UInt8) : Restores lost flost sb task p v (writeLoop sb i count off src) := by
  induction count generalizing off src with
  | zero => exact .ret _
  | succ count ih =>
      unfold writeLoop
      split
      · exact .ret _
      · refine (bmap_restores locked empty).bind fun b => ?_
        refine .buffer (empty ▸ Set.subsingleton_empty) fun free => ?_
        have held : b ∈ (v.take b).bufs := Set.mem_insert b v.bufs
        refine Restores.before (.silent trivial held) fun data => ?_
        refine Restores.before (.silent trivial held) fun _ => ?_
        refine (logWrite_restores held).before fun _ => ?_
        exact release free (ih _ _)

theorem writeBytes_restores {off : Nat} {src : List UInt8} (locked : i ∈ v.locks)
    (empty : v.bufs = ∅) : Restores lost flost sb task p v (writeBytes sb i off src) := by
  refine Restores.bind (.silent trivial locked) fun d => ?_
  split
  · exact .ret _
  · refine (writeLoop_restores locked empty _ _ _).bind fun off => ?_
    refine Restores.bind (.silent trivial locked) fun d => ?_
    split
    · refine Restores.bind (.silent trivial locked) fun _ => ?_
      exact (iupdate_restores locked (empty ▸ Set.subsingleton_empty)).bind fun _ => .ret _
    · exact .ret _

end Code

end PiKernel.Fs
