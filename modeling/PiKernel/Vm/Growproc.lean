import PiKernel.Vm.Contents
import PiKernel.Vm.Replace

/-!
# `growproc`

A process grows or shrinks its address space at the end.  `uvm_alloc` and `uvm_dealloc` return
the new size, and `growproc` takes a size of 0 for a failure; a size below 0 wraps around, and
`uvm_dealloc` takes it for a size that is large enough.
-/

namespace PiKernel.Vm

open PiKernel.Bytes
open PiKernel.Conc
open PiKernel.Conc.Prog (perform)

variable {Pid : Type}

/-- `sz + n` for a 64-bit `sz` and an `int` `n`. -/
def addInt (sz : Nat) (n : Int) : Nat := ((sz + n) % 2 ^ 64).toNat

section Code

variable (kernelEnd : Nat)

/-- The value of `sz` after `uvm_alloc` or `uvm_dealloc`, which return an `int`. -/
def resize (pgdir sz : Nat) (n : Int) : Prog (Act Pid) Nat :=
  if n > 0 then do
    return toInt (← uvmAlloc kernelEnd pgdir sz (addInt sz n))
  else if n < 0 then do
    return toInt (← uvmDealloc kernelEnd pgdir sz (addInt sz n))
  else
    return sz

/-- Switch to the process's own page table. -/
def uvmSwitch (self : Pid) : Prog (Act Pid) Unit := do
  let proc ← perform (.proc self)
  if proc.pgdir = 0 then
    .panic "uvm_switch: no pgdir\n"
  else
    return ()

/-- Grow or shrink the process by `n` bytes; `false` for -1. -/
def growproc (self : Pid) (n : Int) : Prog (Act Pid) Bool := do
  let proc ← perform (.proc self)
  let sz ← resize kernelEnd proc.pgdir proc.sz n
  if n ≠ 0 ∧ sz = 0 then
    return false
  else
    perform (.setSz self sz)
    uvmSwitch self
    return true

end Code

/-! ## What is meant -/

/-- The pages of the process are those below its size. -/
def Machine.Exact (p : Pid) (s : Machine Pid) : Prop :=
  ∀ va, va < 2 ^ 48 →
    ((mappedPage s.mem (s.proc p).pgdir va).isSome ↔ va < ROUNDUP (s.proc p).sz PGSIZE)

/-- A process whose pages are in order, and are those below its size. -/
structure Machine.Sized (kernelEnd : Nat) (p : Pid) (s : Machine Pid) : Prop where
  kernel : 0 < kernelEnd
  sound : s.Sound kernelEnd
  keeps : (s.view kernelEnd p).Keeps {((s.proc p).pgdir, 4)}
  size : (s.proc p).sz < UADDR_SZ
  exactly : s.Exact p

/-- The size has changed by `n`; what stays is unchanged, and what is new is zero. -/
structure Resized (p : Pid) (s : Machine Pid) (n : Int) (s' : Machine Pid) : Prop where
  size : ((s'.proc p).sz : Int) = (s.proc p).sz + n
  exactly : s'.Exact p
  kept : ∀ va, va < (s.proc p).sz → va < (s'.proc p).sz →
    byteOf s'.mem (s'.proc p).pgdir va = byteOf s.mem (s.proc p).pgdir va
  zero : ∀ va, ROUNDUP (s.proc p).sz PGSIZE ≤ va → va < ROUNDUP (s'.proc p).sz PGSIZE →
    byteOf s'.mem (s'.proc p).pgdir va = some 0

/-- The process is as it was. -/
structure Unchanged (p : Pid) (s s' : Machine Pid) : Prop where
  proc : s'.proc p = s.proc p
  mapped : ∀ va, va < 2 ^ 48 →
    mappedPage s'.mem (s.proc p).pgdir va = mappedPage s.mem (s.proc p).pgdir va
  bytes : ∀ va, va < 2 ^ 48 →
    byteOf s'.mem (s.proc p).pgdir va = byteOf s.mem (s.proc p).pgdir va

variable [DecidableEq Pid]

/-- `growproc` is exact, or does nothing. -/
def GrowsExactly (kernelEnd : Nat) (p : Pid) (s : Machine Pid) (n : Int) : Prop :=
  ∃ result s', machine.Completes p (growproc kernelEnd p n) s result s' ∧
    (result = true → Resized p s n s') ∧ (result = false → Unchanged p s s')

/-! ## The new size -/

section Resize

variable {kernelEnd : Nat} {R : Rules kernelEnd Pid} {h : Heap kernelEnd}
  {roots : Set (Nat × Nat)} {pgdir sz : Nat} {n : Int}

theorem toInt_small (small : sz < UADDR_SZ) : toInt sz = sz := by
  simp only [UADDR_SZ] at small
  rw [toInt, Nat.mod_eq_of_lt (by omega), if_pos (by omega)]

/-- The ways in which the size and the pages of a process change. -/
inductive Resizing (h : Heap kernelEnd) (roots : Set (Nat × Nat)) (pgdir sz : Nat) (n : Int) :
    Nat → Heap kernelEnd → Prop where
  | same (zero : n = 0) : Resizing h roots pgdir sz n sz h
  | refused {h' : Heap kernelEnd} (positive : 0 < n) (keeps : h'.Keeps roots)
      (grown : Grown h h' pgdir (pages sz) (pages sz)) : Resizing h roots pgdir sz n 0 h'
  | grown {h' : Heap kernelEnd} {newsz : Nat} (positive : 0 < n) (sum : (newsz : Int) = sz + n)
      (small : newsz < UADDR_SZ) (keeps : h'.Keeps roots)
      (grown : Grown h h' pgdir (pages sz) (pages newsz)) :
      Resizing h roots pgdir sz n newsz h'
  /-- The new size has wrapped around. -/
  | wrapped (negative : n < 0) (wrapped : (sz : Int) + n < 0) : Resizing h roots pgdir sz n sz h
  | shrunk {h' : Heap kernelEnd} {newsz : Nat} (negative : n < 0)
      (sum : (newsz : Int) = sz + n) (keeps : h'.Keeps roots)
      (contiguous : Contiguous h' pgdir (pages newsz))
      (kept : ∀ m, m < PAGES → m < pages newsz → Agree h h' pgdir m) :
      Resizing h roots pgdir sz n newsz h'

omit [DecidableEq Pid] in
theorem resize_resizing (noZero : 0 < kernelEnd) (keeps : h.Keeps roots)
    (more : R.live ⊆ roots) (tree : (pgdir, 4) ∈ roots) (small : sz < UADDR_SZ)
    (int : -2 ^ 31 ≤ n ∧ n < 2 ^ 31) (contiguous : Contiguous h pgdir (pages sz)) :
    R.wp (resize kernelEnd pgdir sz n) h (Resizing h roots pgdir sz n) := by
  have low : sz < 2 ^ 28 := small
  rw [resize]
  by_cases positive : n > 0
  · rw [if_pos positive]
    have sum : ((addInt sz n : Nat) : Int) = sz + n := by
      rw [addInt]
      omega
    apply R.bind
    apply uvmAlloc_map noZero keeps more tree contiguous
    · intro _
      exact R.ret (.refused positive keeps (.refl contiguous))
    · intro _ less
      omega
    · intro h' _ keeps' kept
      exact R.ret (.refused positive keeps' kept)
    · intro h' small' _ keeps' grown
      rw [toInt_small small']
      exact R.ret (.grown positive sum small' keeps' grown)
  · rw [if_neg positive]
    by_cases negative : n < 0
    · rw [if_pos negative]
      apply R.bind
      by_cases wrapped : (sz : Int) + n < 0
      · have large : addInt sz n ≥ sz := by
          rw [addInt]
          omega
        rw [uvmDealloc, if_pos large]
        apply R.ret
        rw [toInt_small small]
        exact R.ret (.wrapped negative wrapped)
      · have sum : ((addInt sz n : Nat) : Int) = sz + n := by
          rw [addInt]
          omega
        apply uvmDealloc_map noZero keeps more tree small (by omega) le_rfl contiguous
        intro h' keeps' exactly kept
        have small' : addInt sz n < UADDR_SZ := lt_trans (by omega) small
        rw [toInt_small small']
        refine R.ret (.shrunk negative sum keeps' ?_ kept)
        intro m inside
        have fewer : pages (addInt sz n) ≤ pages sz := Nat.div_le_div_right (by omega)
        rw [exactly m inside]
        omega
    · rw [if_neg negative]
      exact R.ret (.same (by omega))

end Resize

/-! ## When `growproc` is exact -/

section Growproc

variable {kernelEnd : Nat} {p : Pid} {s s₁ : Machine Pid} {n : Int} {sz : Nat}

/-- The size that is stored at the end. -/
def Machine.withSize (s : Machine Pid) (p : Pid) (sz : Nat) : Machine Pid :=
  s.setProc p { s.proc p with sz := sz }

@[simp]
theorem Machine.withSize_proc : (s.withSize p sz).proc p = { s.proc p with sz := sz } :=
  Function.update_self _ _ _

@[simp]
theorem Machine.withSize_view : (s.withSize p sz).view kernelEnd p = s.view kernelEnd p := by
  ext1
  · rfl
  · rfl
  · rw [Machine.view, Machine.withSize_proc]
    rfl

omit [DecidableEq Pid] in
theorem resize_only {pgdir : Nat} :
    (resize kernelEnd pgdir sz n : Prog (Act Pid) Nat).Only Act.OnMemory := by
  rw [resize]
  split
  · exact uvmAlloc_only.bind fun _ => .ret
  · split
    · exact uvmDealloc_only.bind fun _ => .ret
    · exact .ret

/-- What becomes of the size and the pages of a process, with a state after it. -/
structure Resizes (kernelEnd : Nat) (p : Pid) (s : Machine Pid) (n : Int) (sz : Nat)
    (s₁ : Machine Pid) : Prop where
  sound : s₁.Sound kernelEnd
  proc : s₁.proc = s.proc
  resizing : ∃ h, s₁.view kernelEnd p = h ∧ Resizing (s.view kernelEnd p)
    {((s.proc p).pgdir, 4)} (s.proc p).pgdir (s.proc p).sz n sz h

omit [DecidableEq Pid] in
theorem Machine.Sized.contiguous (sized : s.Sized kernelEnd p) :
    Contiguous (s.view kernelEnd p) (s.proc p).pgdir (pages (s.proc p).sz) := by
  rw [← contiguous_iff sized.keeps rfl, ← ROUNDUP_page]
  exact sized.exactly

/-- A call ends with what becomes of the size and the pages. -/
theorem growproc_ends {post : Bool → Machine Pid → Prop} (sized : s.Sized kernelEnd p)
    (int : -2 ^ 31 ≤ n ∧ n < 2 ^ 31)
    (failed : ∀ s₁ sz, n ≠ 0 → sz = 0 → Resizes kernelEnd p s n sz s₁ → post false s₁)
    (resized : ∀ s₁ sz, (n = 0 ∨ sz ≠ 0) → Resizes kernelEnd p s n sz s₁ →
      post true (s₁.withSize p sz)) :
    machine.Ends p (fun _ => False) post (growproc kernelEnd p n) s := by
  have pgdir : (s.proc p).pgdir ≠ 0 := by
    have root := Forest.root_mem sized.keeps rfl
    have low := ((s.view kernelEnd p).usable _ root).1
    have positive := sized.kernel
    omega
  have resizing := resize_resizing (R := aloneRules kernelEnd p fun _ => False) sized.kernel
    sized.keeps (Set.empty_subset _) rfl sized.size int sized.contiguous
  refine System.Ends.step rfl ?_
  apply System.Ends.bind
  refine ((sized.sound.ends resizing).leaving (proc_leaves resize_only)).mono (fun _ => id) ?_
  rintro sz s₁ ⟨⟨sound, _, changed⟩, same⟩
  by_cases zero : n ≠ 0 ∧ sz = 0
  · rw [if_pos zero]
    exact .ret (failed s₁ sz zero.1 zero.2 ⟨sound, same, _, rfl, changed⟩)
  · rw [if_neg zero]
    refine System.Ends.step (rfl : _ = Outcome.done () (s₁.withSize p sz)) ?_
    apply System.Ends.bind
    refine System.Ends.step rfl ?_
    rw [if_neg (by rw [Machine.withSize_proc, same]; exact pgdir)]
    exact .ret (.ret (resized s₁ sz (by omega) ⟨sound, same, _, rfl, changed⟩))

omit [DecidableEq Pid] in
/-- All pages that were mapped are as they were. -/
theorem unchanged_of_agree (proc : s₁.proc = s.proc)
    (keeps : (s.view kernelEnd p).Keeps {((s.proc p).pgdir, 4)})
    (keeps' : (s₁.view kernelEnd p).Keeps {((s.proc p).pgdir, 4)})
    (agree : ∀ m, m < PAGES →
      Agree (s.view kernelEnd p) (s₁.view kernelEnd p) (s.proc p).pgdir m) :
    Unchanged p s s₁ where
  proc := by rw [proc]
  mapped va low := ((agree _ (page_lt low)).bytes keeps keeps' rfl).1
  bytes va low := ((agree _ (page_lt low)).bytes keeps keeps' rfl).2

omit [DecidableEq Pid] in
/-- Pages that are mapped neither before nor after agree. -/
theorem Agree.of_contiguous {h h' : Heap kernelEnd} {pgdir k m : Nat}
    (before : Contiguous h pgdir k) (after : Contiguous h' pgdir k) (low : m < PAGES)
    (beyond : k ≤ m) : Agree h h' pgdir m := by
  have absent : h.mapped pgdir m = none := by
    rw [← Option.not_isSome_iff_eq_none, before m low]
    omega
  have absent' : h'.mapped pgdir m = none := by
    rw [← Option.not_isSome_iff_eq_none, after m low]
    omega
  constructor
  · rw [absent, absent']
  · intro y found
    rw [absent] at found
    cases found

/-- Where the size changes as it should the address space does. -/
theorem resized_of_agree {h' : Heap kernelEnd} (sized : s.Sized kernelEnd p)
    (proc : s₁.proc = s.proc) (viewed : s₁.view kernelEnd p = h')
    (sum : (sz : Int) = (s.proc p).sz + n)
    (keeps : h'.Keeps {((s.proc p).pgdir, 4)})
    (contiguous : Contiguous h' (s.proc p).pgdir (pages sz))
    (kept : ∀ m, m < PAGES → m < pages (s.proc p).sz → m < pages sz →
      Agree (s.view kernelEnd p) h' (s.proc p).pgdir m)
    (new : ∀ m, pages (s.proc p).sz ≤ m → m < pages sz →
      ∃ y, h'.mapped (s.proc p).pgdir m = some y ∧ h'.page y = some (filled 0)) :
    Resized p s n (s₁.withSize p sz) := by
  subst viewed
  have size := sized.size
  have low : ∀ va, va < (s.proc p).sz → va < 2 ^ 48 := by
    intro va below
    simp only [UADDR_SZ] at size
    omega
  constructor
  · rw [Machine.withSize_proc]
    exact sum
  · intro va inside
    rw [Machine.withSize_proc, proc]
    change (mappedPage s₁.mem (s.proc p).pgdir va).isSome ↔ va < ROUNDUP sz PGSIZE
    rw [ROUNDUP_page]
    exact (contiguous_iff keeps rfl).mpr contiguous va inside
  · intro va below below'
    rw [Machine.withSize_proc] at below' ⊢
    rw [proc]
    have page : ∀ {size : Nat}, va < size → va / PGSIZE < pages size := by
      intro size less
      rw [← lt_pages]
      exact lt_of_le_of_lt (Nat.div_mul_le_self va PGSIZE) less
    exact ((kept _ (page_lt (low va below)) (page below) (page below')).bytes sized.keeps keeps
      rfl).2
  · intro va above below
    rw [Machine.withSize_proc] at below ⊢
    rw [ROUNDUP_page] at above below
    change byteOf s₁.mem (s₁.proc p).pgdir va = some 0
    rw [proc]
    rcases new (va / PGSIZE) ((Nat.le_div_iff_mul_le (by decide)).mpr above)
      ((Nat.div_lt_iff_lt_mul (by decide)).mpr below) with ⟨y, found, zero⟩
    exact byteOf_zero keeps rfl found zero

omit [DecidableEq Pid] in
theorem Unchanged.sized (unchanged : Unchanged p s s₁) (sized : s.Sized kernelEnd p)
    (sound : s₁.Sound kernelEnd)
    (keeps : (s₁.view kernelEnd p).Keeps {((s.proc p).pgdir, 4)}) : s₁.Sized kernelEnd p where
  kernel := sized.kernel
  sound := sound
  keeps := by
    rw [unchanged.proc]
    exact keeps
  size := by
    rw [unchanged.proc]
    exact sized.size
  exactly va low := by
    rw [unchanged.proc, unchanged.mapped va low]
    exact sized.exactly va low

theorem Resized.sized (resized : Resized p s n (s₁.withSize p sz)) (sized : s.Sized kernelEnd p)
    (sound : s₁.Sound kernelEnd) (proc : s₁.proc = s.proc)
    (keeps : (s₁.view kernelEnd p).Keeps {((s.proc p).pgdir, 4)}) (small : sz < UADDR_SZ) :
    (s₁.withSize p sz).Sized kernelEnd p where
  kernel := sized.kernel
  sound := ⟨sound.nodup, sound.usable⟩
  keeps := by
    rw [Machine.withSize_view, Machine.withSize_proc, proc]
    exact keeps
  size := by
    rw [Machine.withSize_proc]
    exact small
  exactly := resized.exactly

/-- A size that is large enough is reached, or nothing changes; the pages stay in order. -/
theorem growproc_resizes (sized : s.Sized kernelEnd p) (int : -2 ^ 31 ≤ n ∧ n < 2 ^ 31)
    (good : n = 0 ∨ (s.proc p).sz = 0 ∨ 0 < ((s.proc p).sz : Int) + n) :
    machine.Ends p (fun _ => False)
      (fun result s' => s'.Sized kernelEnd p ∧ (result = true → Resized p s n s') ∧
        (result = false → Unchanged p s s')) (growproc kernelEnd p n) s := by
  apply growproc_ends sized int
  · rintro s₁ sz other zero ⟨sound, proc, h, viewed, resizing⟩
    have kept : ∀ {h' : Heap kernelEnd}, s₁.view kernelEnd p = h' →
        h'.Keeps {((s.proc p).pgdir, 4)} →
        (∀ m, m < PAGES → Agree (s.view kernelEnd p) h' (s.proc p).pgdir m) →
        s₁.Sized kernelEnd p ∧ (false = true → Resized p s n s₁) ∧
          (false = false → Unchanged p s s₁) := by
      intro h' viewed' keeps agree
      subst viewed'
      have unchanged := unchanged_of_agree proc sized.keeps keeps agree
      exact ⟨unchanged.sized sized sound keeps, fun succeeded => by (cases succeeded),
        fun _ => unchanged⟩
    cases resizing with
    | same zero' => exact absurd zero' other
    | refused _ keeps grown =>
        apply kept viewed keeps
        intro m low
        by_cases below : m < pages (s.proc p).sz
        · exact grown.old m low below
        · exact .of_contiguous sized.contiguous grown.exactly low (by omega)
    | grown positive sum _ _ _ => omega
    | wrapped negative wrapped => exact kept viewed sized.keeps fun _ _ => .refl
    | shrunk negative sum _ _ _ => omega
  · rintro s₁ sz nonzero ⟨sound, proc, h, viewed, resizing⟩
    have changed : ∀ {h' : Heap kernelEnd}, s₁.view kernelEnd p = h' →
        h'.Keeps {((s.proc p).pgdir, 4)} → sz < UADDR_SZ →
        Resized p s n (s₁.withSize p sz) →
        (s₁.withSize p sz).Sized kernelEnd p ∧
          (true = true → Resized p s n (s₁.withSize p sz)) ∧
          (true = false → Unchanged p s (s₁.withSize p sz)) := by
      intro h' viewed' keeps small resized
      subst viewed'
      exact ⟨resized.sized sized sound proc keeps small, fun _ => resized,
        fun failed => by (cases failed)⟩
    cases resizing with
    | same zero =>
        exact changed viewed sized.keeps sized.size
          (resized_of_agree sized proc viewed (by omega) sized.keeps sized.contiguous
            (fun _ _ _ _ => .refl) fun m above below => by omega)
    | refused positive _ _ => omega
    | grown positive sum small keeps grown =>
        exact changed viewed keeps small
          (resized_of_agree sized proc viewed sum keeps grown.exactly
            (fun m low below _ => grown.old m low below) grown.new)
    | wrapped negative wrapped => omega
    | shrunk negative sum keeps contiguous kept =>
        have fewer : pages sz ≤ pages (s.proc p).sz := Nat.div_le_div_right (by omega)
        exact changed viewed keeps (lt_trans (by omega) sized.size)
          (resized_of_agree sized proc viewed sum keeps contiguous
            (fun m low _ below => kept m low below) fun m above below => by omega)

/-- However it ends, the size is below the bound that `uvm_alloc` checks. -/
theorem growproc_size (sized : s.Sized kernelEnd p) (int : -2 ^ 31 ≤ n ∧ n < 2 ^ 31) :
    machine.Ends p (fun _ => False) (fun _ s' => (s'.proc p).sz < UADDR_SZ)
      (growproc kernelEnd p n) s := by
  apply growproc_ends sized int
  · rintro s₁ sz _ _ ⟨_, proc, _⟩
    rw [proc]
    exact sized.size
  · rintro s₁ sz _ ⟨_, _, h, _, resizing⟩
    rw [Machine.withSize_proc]
    change sz < UADDR_SZ
    cases resizing with
    | same zero => exact sized.size
    | refused positive _ _ => exact Nat.two_pow_pos 28
    | grown positive sum small _ _ => exact small
    | wrapped negative wrapped => exact sized.size
    | shrunk negative sum _ _ _ => exact lt_trans (by omega) sized.size

theorem growproc_exact (sized : s.Sized kernelEnd p) (int : -2 ^ 31 ≤ n ∧ n < 2 ^ 31)
    (good : n = 0 ∨ (s.proc p).sz = 0 ∨ 0 < ((s.proc p).sz : Int) + n) :
    GrowsExactly kernelEnd p s n := by
  rcases (growproc_resizes sized int good).completes with ⟨result, s', done, _, exactly⟩
  exact ⟨result, s', done, exactly⟩

/-- Shrinking to 0 frees all pages and fails; shrinking below 0 succeeds and does nothing. -/
theorem growproc_not_exact (sized : s.Sized kernelEnd p) (int : -2 ^ 31 ≤ n ∧ n < 2 ^ 31)
    (other : n ≠ 0) (positive : (s.proc p).sz ≠ 0) (small : ((s.proc p).sz : Int) + n ≤ 0) :
    ¬ GrowsExactly kernelEnd p s n := by
  have ends : machine.Ends p (fun _ => False)
      (fun result s' => (result = true → ¬ Resized p s n s') ∧
        (result = false → ¬ Unchanged p s s')) (growproc kernelEnd p n) s := by
    apply growproc_ends sized int
    · rintro s₁ sz _ zero ⟨_, proc, h, viewed, resizing⟩
      refine ⟨fun succeeded => by (cases succeeded), fun _ unchanged => ?_⟩
      have mapped := unchanged.mapped 0 (by decide)
      cases resizing with
      | same zero' => exact other zero'
      | refused positive _ _ => omega
      | grown positive _ _ _ _ => omega
      | wrapped negative wrapped => omega
      | shrunk negative sum keeps contiguous _ =>
          subst viewed
          have before := (contiguous_iff sized.keeps rfl).mpr sized.contiguous 0 (by decide)
          have after := (contiguous_iff keeps rfl).mpr contiguous 0 (by decide)
          have some : 0 < pages (s.proc p).sz := by
            simp only [pages, PGSIZE]
            omega
          have none : pages sz = 0 := by
            rw [zero]
            decide
          rw [mapped, before, none, PGSIZE] at after
          omega
    · rintro s₁ sz nonzero ⟨_, _, h, viewed, resizing⟩
      refine ⟨fun _ resized => ?_, fun failed => by (cases failed)⟩
      have size := resized.size
      rw [Machine.withSize_proc] at size
      have same : (sz : Int) = (s.proc p).sz + n := size
      cases resizing with
      | same zero => exact other zero
      | refused positive _ _ => omega
      | grown positive _ _ _ _ => omega
      | wrapped negative wrapped => omega
      | shrunk negative sum _ _ _ => omega
  rintro ⟨result, s', done, exactly, unchanged⟩
  have wrong := ends.of_completes done
  cases result with
  | true => exact wrong.1 rfl (exactly rfl)
  | false => exact wrong.2 rfl (unchanged rfl)

/--
A call is exact, or does nothing, exactly where no other size is asked for, the process has no
pages, or the new size is positive.
-/
theorem growproc_exact_iff (sized : s.Sized kernelEnd p) (int : -2 ^ 31 ≤ n ∧ n < 2 ^ 31) :
    GrowsExactly kernelEnd p s n ↔
      n = 0 ∨ (s.proc p).sz = 0 ∨ 0 < ((s.proc p).sz : Int) + n := by
  constructor
  · intro exactly
    by_contra! wrong
    exact growproc_not_exact sized int wrong.1 wrong.2.1 wrong.2.2 exactly
  · exact growproc_exact sized int

end Growproc

/-! ## Shrinking to nothing -/

/-- A process with an empty address space. -/
def emptyProcess : Machine Unit :=
  emptySpace.2.setProc () { emptySpace.2.proc () with pgdir := emptySpace.1 }

/-- The process has grown by one page. -/
def onePageProcess : Bool × Machine Unit :=
  (machine.run () (growproc 1 () PGSIZE) emptyProcess).get (by decide)

theorem emptyProcess_sized : emptyProcess.Sized 1 () := by
  have ready := caller_ready
  have keeps : (emptyProcess.view 1 ()).Keeps {((emptyProcess.proc ()).pgdir, 4)} :=
    ready.keeps
  refine ⟨by decide, ⟨ready.sound.nodup, ready.sound.usable⟩, keeps, by decide, ?_⟩
  intro va _
  have absent : mappedPage emptySpace.2.mem emptySpace.1 va = none := by
    rw [mappedPage, walkPath, Links.follow_cons, emptySpace_links, Option.bind_none]
  constructor
  · intro mapped
    exact absurd (absent ▸ mapped) (by decide)
  · intro low
    exact absurd low (Nat.not_lt_zero _)

theorem onePageProcess_sized : onePageProcess.2.Sized 1 () := by
  have run : machine.run () (growproc 1 () PGSIZE) emptyProcess = some onePageProcess :=
    (Option.some_get _).symm
  exact ((growproc_resizes emptyProcess_sized (by decide) (.inr (.inl rfl))).of_completes
    (System.run_completes run)).1

theorem growproc_exact_iff_onePageProcess :
    GrowsExactly 1 () onePageProcess.2 PGSIZE ↔
      (PGSIZE : Int) = 0 ∨ (onePageProcess.2.proc ()).sz = 0 ∨
        0 < ((onePageProcess.2.proc ()).sz : Int) + PGSIZE :=
  growproc_exact_iff onePageProcess_sized (by decide)

/-- The page of the process is freed, and the call fails. -/
theorem not_growsExactly_onePageProcess :
    onePageProcess.2.Sized 1 () ∧ ¬ GrowsExactly 1 () onePageProcess.2 (-PGSIZE) := by
  refine ⟨onePageProcess_sized, ?_⟩
  have size : (onePageProcess.2.proc ()).sz = PGSIZE := by decide
  apply growproc_not_exact onePageProcess_sized (by decide) (by decide)
  · rw [size]
    decide
  · rw [size]
    decide

end PiKernel.Vm
