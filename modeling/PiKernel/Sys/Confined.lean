import PiKernel.Sys.Pointers
import Mathlib.Data.UInt

/-!
# Which calls stay in the memory of the process

`argptr` bounds the count after it has been cut to an `int`.  `write` takes its pieces
from the cut count again, so only the console, which reads a negative piece as a huge
one, leaves the process's memory.  `read` passes all 64 bits on to `readi`, which is
bounded by the rest of the file only.
-/

namespace PiKernel.Sys

open PiKernel.Conc
open PiKernel.Conc.Prog (perform)
open PiKernel.Fs
open PiKernel.Vm (UADDR_SZ)

/-! ## Accesses of all runs -/

/-- The addresses of an access are below `sz`. -/
def Allowed (sz : Nat) : {β : Type} → Act β → Prop
  | _, .toUser va n => ∀ a, va ≤ a → a < va + n → a < sz
  | _, .fromUser va n => ∀ a, va ≤ a → a < va + n → a < sz
  | _, .ilock => True
  | _, .getc => True

/-- What the rest of the kernel may answer; `found` are the sizes and offsets. -/
def Answer (found : UInt32 → UInt64 → Prop) : {β : Type} → Act β → β → Prop
  | _, .ilock, (size, off) => found size off
  | _, .getc, _ => True
  | _, .toUser _ _, _ => True
  | _, .fromUser _ _, _ => True

variable {sz : Nat} {found : UInt32 → UInt64 → Prop} {α β : Type}

/-- All accesses are allowed in all runs, and the results satisfy `post`. -/
def Within (sz : Nat) (found : UInt32 → UInt64 → Prop) (post : α → Prop) : Prog Act α → Prop
  | .ret value => post value
  | .act action next =>
      Allowed sz action ∧ ∀ value, Answer found action value → Within sz found post (next value)
  | .panic _ => True

/-- Every address that a run accesses is in the memory of the process. -/
def Confined (sz : Nat) (found : UInt32 → UInt64 → Prop) (program : Prog Act α) : Prop :=
  Within sz found (fun _ => True) program

theorem within_panic {message : String} {post : α → Prop} :
    Within sz found post (.panic message) :=
  trivial

theorem within_bind {program : Prog Act α} {next : α → Prog Act β} {post : β → Prop} :
    Within sz found post (program >>= next) ↔
      Within sz found (fun value => Within sz found post (next value)) program := by
  induction program with
  | ret value => exact Iff.rfl
  | act action rest ih =>
      constructor
      · rintro ⟨allowed, later⟩
        exact ⟨allowed, fun value answer => ih value |>.mp (later value answer)⟩
      · rintro ⟨allowed, later⟩
        exact ⟨allowed, fun value answer => ih value |>.mpr (later value answer)⟩
  | panic message => exact Iff.rfl

theorem Within.mono {program : Prog Act α} {post post' : α → Prop}
    (within : Within sz found post program) (implies : ∀ value, post value → post' value) :
    Within sz found post' program := by
  induction program with
  | ret value => exact implies value within
  | act action rest ih => exact ⟨within.1, fun value answer => ih value (within.2 value answer)⟩
  | panic message => trivial

/-- The results do not matter. -/
theorem within_iff {program : Prog Act α} {post : α → Prop} (always : ∀ value, post value) :
    Within sz found post program ↔ Confined sz found program :=
  ⟨fun within => within.mono fun _ _ => trivial, fun within => within.mono fun _ _ => always _⟩

theorem inside_iff {va n : Nat} (some : 0 < n) :
    (∀ a, va ≤ a → a < va + n → a < sz) ↔ va + n ≤ sz := by
  constructor
  · intro inside
    have last := inside (va + n - 1) (by omega) (by omega)
    omega
  · intro inside a _ high
    omega

/-! ## The loops -/

variable {va n off size fuel : Nat}

theorem consoleWriteLoop_confined (low : va ≤ sz) (bound : sz ≤ UADDR_SZ) :
    Confined sz found (consoleWriteLoop n va) ↔ n ≤ sz - va := by
  induction n generalizing va with
  | zero => exact iff_of_true trivial (Nat.zero_le _)
  | succ n ih =>
      have first : Allowed sz (.fromUser va 1) ↔ va + 1 ≤ sz := inside_iff Nat.zero_lt_one
      constructor
      · rintro ⟨allowed, later⟩
        have inside := first.mp allowed
        have rest := later () trivial
        rw [Nat.mod_eq_of_lt (by simp only [UADDR_SZ] at bound; omega)] at rest
        have := (ih inside).mp rest
        omega
      · intro fits
        refine ⟨first.mpr (by omega), fun _ _ => ?_⟩
        rw [Nat.mod_eq_of_lt (by simp only [UADDR_SZ] at bound; omega)]
        exact (ih (by omega)).mpr (by omega)

theorem consoleReadLoop_confined (low : va ≤ sz) (bound : sz ≤ UADDR_SZ) :
    Confined sz found (consoleReadLoop n va) ↔ n ≤ sz - va := by
  induction n generalizing va with
  | zero => exact iff_of_true trivial (Nat.zero_le _)
  | succ n ih =>
      have first : Allowed sz (.toUser va 1) ↔ va + 1 ≤ sz := inside_iff Nat.zero_lt_one
      constructor
      · rintro ⟨_, later⟩
        -- A character that does not end the input.
        rcases later (some 0) trivial with ⟨allowed, later⟩
        have inside := first.mp allowed
        have rest := later () trivial
        rw [if_neg (by decide), Nat.mod_eq_of_lt (by simp only [UADDR_SZ] at bound; omega)] at rest
        have := (ih inside).mp rest
        omega
      · intro fits
        refine ⟨trivial, fun c _ => ?_⟩
        cases c with
        | none => trivial
        | some c =>
            change Within sz found _ (if c = 4 then _ else _)
            by_cases finished : c = 4
            · rw [if_pos finished]
              trivial
            · rw [if_neg finished]
              refine ⟨first.mpr (by omega), fun _ _ => ?_⟩
              change Within sz found _ (if c = 10 then _ else _)
              by_cases line : c = 10
              · rw [if_pos line]
                trivial
              · rw [if_neg line, Nat.mod_eq_of_lt (by simp only [UADDR_SZ] at bound; omega)]
                exact (ih (by omega)).mpr (by omega)

theorem copyLoop_confined {access : Nat → Nat → Act Unit}
    (addresses : ∀ va n, Allowed sz (access va n) ↔ ∀ a, va ≤ a → a < va + n → a < sz)
    (answers : ∀ va n, Answer found (access va n) ()) (low : va ≤ sz) (bound : sz ≤ UADDR_SZ)
    (enough : 0 < n → n + off % BSIZE ≤ fuel * BSIZE) :
    Confined sz found (copyLoop access fuel n off va) ↔
      min n (MAXFILE * BSIZE - off) ≤ sz - va := by
  have whole : MAXFILE * BSIZE = 140 * 512 := rfl
  induction fuel generalizing n off va with
  | zero =>
      have nothing : n = 0 := by omega
      exact iff_of_true trivial (by omega)
  | succ fuel ih =>
      rw [copyLoop]
      by_cases nothing : n = 0
      · rw [if_pos nothing]
        exact iff_of_true trivial (by omega)
      · rw [if_neg nothing]
        have past : MAXFILE ≤ off / BSIZE ↔ MAXFILE * BSIZE ≤ off :=
          Nat.le_div_iff_mul_le (by decide)
        by_cases large : MAXFILE ≤ off / BSIZE
        · rw [if_pos large]
          rw [past] at large
          exact iff_of_true within_panic (by omega)
        · rw [if_neg large]
          rw [past, whole] at large
          let m := min n (BSIZE - off % BSIZE)
          have some : 0 < m := by
            simp only [m, BSIZE]
            omega
          have piece : m ≤ n := min_le_left _ _
          have block : m + off ≤ MAXFILE * BSIZE := by
            rw [whole]
            simp only [m, BSIZE]
            omega
          have later : 0 < n - m → n - m + (off + m) % BSIZE ≤ fuel * BSIZE := by
            have before := enough (Nat.pos_of_ne_zero nothing)
            simp only [m, BSIZE] at before ⊢
            omega
          have first : Allowed sz (access va m) ↔ va + m ≤ sz :=
            (addresses va m).trans (inside_iff some)
          have small : va + m ≤ sz → (va + m) % 2 ^ 64 = va + m := by
            intro inside
            apply Nat.mod_eq_of_lt
            simp only [UADDR_SZ] at bound
            omega
          have next : ∀ inside : va + m ≤ sz, _ := fun inside => ih inside later
          rw [whole] at block next ⊢
          constructor
          · rintro ⟨allowed, rest⟩
            have inside := first.mp allowed
            have confined : Confined sz found
                (copyLoop access fuel (n - m) (off + m) ((va + m) % 2 ^ 64)) :=
              rest () (answers va m)
            rw [small inside] at confined
            have := (next inside).mp confined
            omega
          · intro fits
            have inside : va + m ≤ sz := by omega
            refine ⟨first.mpr inside, fun _ _ => ?_⟩
            change Confined sz found
              (copyLoop access fuel (n - m) (off + m) ((va + m) % 2 ^ 64))
            rw [small inside]
            exact (next inside).mpr (by omega)

theorem toUser_confined (low : va ≤ sz) (bound : sz ≤ UADDR_SZ)
    (enough : 0 < n → n + off % BSIZE ≤ fuel * BSIZE) :
    Confined sz found (copyLoop .toUser fuel n off va) ↔
      min n (MAXFILE * BSIZE - off) ≤ sz - va :=
  copyLoop_confined (fun _ _ => Iff.rfl) (fun _ _ => trivial) low bound enough

theorem fromUser_confined (low : va ≤ sz) (bound : sz ≤ UADDR_SZ)
    (enough : 0 < n → n + off % BSIZE ≤ fuel * BSIZE) :
    Confined sz found (copyLoop .fromUser fuel n off va) ↔
      min n (MAXFILE * BSIZE - off) ≤ sz - va :=
  copyLoop_confined (fun _ _ => Iff.rfl) (fun _ _ => trivial) low bound enough

/-! ## `read` -/

variable {f : OpenFile} {addr : Nat}

/-- The bytes that `readi` copies fit into the memory from `addr` on. -/
def ReadFits (sz : Nat) (f : OpenFile) (addr n size off : Nat) : Prop :=
  if f.ipType = T_DEV then
    f.major = CONSOLE → toSigned 64 n ≤ (sz - addr : Nat)
  else
    off ≤ size → off + n < 2 ^ 64 →
      min (off + n) (min size (MAXFILE * BSIZE)) - off ≤ sz - addr

theorem consoleRead_confined (low : addr ≤ sz) (bound : sz ≤ UADDR_SZ) :
    Confined sz found (consoleRead addr n) ↔ toSigned 64 n ≤ (sz - addr : Nat) := by
  rw [Confined, consoleRead, within_bind, within_iff, consoleReadLoop_confined low bound]
  · omega
  · intro left
    cases left <;> trivial

theorem readi_confined (low : addr ≤ sz) (bound : sz ≤ UADDR_SZ) :
    Confined sz found (readi f size addr off n) ↔ ReadFits sz f addr n size off := by
  rw [readi, ReadFits]
  by_cases device : f.ipType = T_DEV
  · rw [if_pos device, if_pos device]
    by_cases console : f.major = CONSOLE
    · rw [if_pos console, consoleRead_confined low bound]
      exact ⟨fun fits _ => fits, fun fits => fits console⟩
    · rw [if_neg console]
      exact iff_of_true trivial fun same => absurd same console
  · rw [if_neg device, if_neg device]
    by_cases refused : size < off ∨ 2 ^ 64 ≤ off + n
    · rw [if_pos refused]
      exact iff_of_true trivial fun _ _ => by omega
    · rw [if_neg refused, Confined, within_bind, within_iff, toUser_confined low bound]
      · constructor
        · intro fits _ _
          split at fits <;> omega
        · intro fits
          have := fits (by omega) (by omega)
          split <;> omega
      · intro _
        simp only [BSIZE]
        omega
      · exact fun _ => trivial

theorem fileread_confined (low : addr ≤ sz) (bound : sz ≤ UADDR_SZ) :
    Confined sz found (fileread f addr n) ↔
      (f.readable → f.type = .FD_INODE → ∀ size off, found size off →
        ReadFits sz f addr n size.toNat off.toNat) := by
  rw [fileread]
  cases readable : f.readable with
  | false => exact iff_of_true trivial (by simp)
  | true =>
      cases type : f.type with
      | FD_NONE => exact iff_of_true within_panic (by simp)
      | FD_PIPE => exact iff_of_true within_panic (by simp)
      | FD_INODE =>
          constructor
          · rintro ⟨_, later⟩ _ _ size off here
            exact (readi_confined low bound).mp (later (size, off) here)
          · intro fits
            refine ⟨trivial, ?_⟩
            rintro ⟨size, off⟩ here
            exact (readi_confined low bound).mpr (fits rfl rfl size off here)

/-! ## `write` -/

/-- The console gets no piece of a negative length. -/
def WriteFits (f : OpenFile) (n : Nat) : Prop :=
  f.ipType = T_DEV → f.major = CONSOLE → 0 < toSigned 64 n → 0 ≤ toSigned 32 n

theorem consoleWrite_within (low : va ≤ sz) (bound : sz ≤ UADDR_SZ) (fits : n ≤ sz - va) :
    Within sz found (fun r => r = (n : Int)) (consoleWrite va n) := by
  have result : toSigned 64 n = n := by
    simp only [UADDR_SZ, toSigned] at bound ⊢
    omega
  rw [consoleWrite, within_bind, within_iff]
  · exact (consoleWriteLoop_confined low bound).mpr fits
  · exact fun _ => result

/-- A piece is taken from the memory of the process, or it is refused. -/
theorem writei_within (low : va ≤ sz) (bound : sz ≤ UADDR_SZ)
    (fits : n ≤ sz - va ∨
      MAXFILE * BSIZE < n ∧ ¬ (f.ipType = T_DEV ∧ f.major = CONSOLE)) :
    Within sz found (fun r => r = -1 ∨ r = (n : Int)) (writei f size va off n) := by
  rw [writei]
  by_cases device : f.ipType = T_DEV
  · rw [if_pos device]
    by_cases console : f.major = CONSOLE
    · rw [if_pos console]
      rcases fits with small | ⟨_, other⟩
      · exact (consoleWrite_within low bound small).mono fun _ => Or.inr
      · exact absurd ⟨device, console⟩ other
    · rw [if_neg console]
      exact Or.inl rfl
  · rw [if_neg device]
    by_cases refused : size < off ∨ 2 ^ 64 ≤ off + n
    · rw [if_pos refused]
      exact Or.inl rfl
    · rw [if_neg refused]
      by_cases large : MAXFILE * BSIZE < off + n
      · rw [if_pos large]
        exact Or.inl rfl
      · rw [if_neg large, within_bind, within_iff]
        · apply (fromUser_confined low bound _).mpr
          · omega
          · intro _
            simp only [BSIZE]
            omega
        · exact fun _ => Or.inr rfl

theorem filewriteLoop_confined {i : Int} (low : addr ≤ sz) (bound : sz ≤ UADDR_SZ)
    (checked : 0 ≤ toSigned 32 n → addr + toSigned 32 n ≤ sz) (fits : WriteFits f n)
    (done : 0 ≤ i ∧ i ≤ toSigned 32 n ∨ i = 0) :
    Confined sz found (filewriteLoop f addr n fuel i) := by
  induction fuel generalizing i with
  | zero => trivial
  | succ fuel ih =>
      rw [filewriteLoop]
      by_cases more : i < toSigned 64 n
      · rw [if_pos more]
        have cut : toSigned 32 (toUnsigned (toSigned 64 n - i)) = toSigned 32 n - i := by
          simp only [toSigned, toUnsigned] at done ⊢
          omega
        rw [cut]
        let n1 := min (toSigned 32 n - i) filewriteMax
        have start : toUnsigned (addr + i) = (addr + i).toNat := by
          simp only [UADDR_SZ, toSigned, toUnsigned] at bound done ⊢
          omega
        have piece : toUnsigned n1 ≤ sz - (addr + i).toNat ∨
            MAXFILE * BSIZE < toUnsigned n1 ∧ ¬ (f.ipType = T_DEV ∧ f.major = CONSOLE) := by
          have max : filewriteMax = 1536 := rfl
          by_cases positive : 0 ≤ toSigned 32 n
          · left
            have inside := checked positive
            simp only [n1, max, UADDR_SZ, toUnsigned] at bound ⊢
            omega
          · right
            have zero : i = 0 := by omega
            rw [zero] at more
            constructor
            · have whole : MAXFILE * BSIZE = 71680 := rfl
              rw [whole]
              simp only [n1, max, toSigned, toUnsigned] at positive ⊢
              omega
            · exact fun console => positive (fits console.1 console.2 more)
        refine ⟨trivial, ?_⟩
        rintro ⟨size, off⟩ _
        change Within sz found _ (writei f size.toNat (toUnsigned (addr + i)) off.toNat
          (toUnsigned n1) >>= _)
        rw [start, within_bind]
        refine (writei_within (by omega) bound piece).mono ?_
        rintro r (rfl | rfl)
        · trivial
        · rw [if_neg (by omega)]
          by_cases whole : (toUnsigned n1 : Int) ≠ n1
          · rw [if_pos whole]
            exact within_panic
          · rw [if_neg whole]
            apply ih
            omega
      · rw [if_neg more]
        trivial

theorem filewrite_confined (low : addr ≤ sz) (bound : sz ≤ UADDR_SZ)
    (checked : 0 ≤ toSigned 32 n → addr + toSigned 32 n ≤ sz) :
    (∀ fuel, Confined sz found (filewrite f fuel addr n)) ↔
      (f.writable → f.type = .FD_INODE → ∀ size off, found size off → WriteFits f n) := by
  cases writable : f.writable with
  | false =>
      refine iff_of_true (fun fuel => ?_) (by simp)
      rw [filewrite, writable]
      trivial
  | true =>
      cases type : f.type with
      | FD_NONE =>
          refine iff_of_true (fun fuel => ?_) (by simp)
          rw [filewrite, writable, type]
          exact within_panic
      | FD_PIPE =>
          refine iff_of_true (fun fuel => ?_) (by simp)
          rw [filewrite, writable, type]
          exact within_panic
      | FD_INODE =>
          have same : ∀ fuel, Confined sz found (filewrite f fuel addr n) ↔
              Confined sz found (filewriteLoop f addr n fuel 0) := by
            intro fuel
            rw [filewrite, writable, type, Confined]
            exact within_bind.trans (within_iff fun _ => trivial)
          simp only [same]
          constructor
          · intro confined _ _ size off here device console positive
            by_contra negative
            -- The first piece is negative, and the console reads it as a huge one.
            have first := confined 1
            rw [filewriteLoop, if_pos positive] at first
            have loop := first.2 (size, off) here
            have max : filewriteMax = 1536 := rfl
            have cut : toUnsigned (min (toSigned 32 (toUnsigned (toSigned 64 n - 0)))
                filewriteMax) = toUnsigned (toSigned 32 n) := by
              simp only [max, toSigned, toUnsigned] at negative ⊢
              omega
            have start : toUnsigned (addr + 0) = addr := by
              simp only [UADDR_SZ, toUnsigned] at bound ⊢
              omega
            change Within sz found _ (writei f size.toNat (toUnsigned (addr + 0)) off.toNat
              (toUnsigned (min (toSigned 32 (toUnsigned (toSigned 64 n - 0)))
                filewriteMax)) >>= _) at loop
            rw [cut, start, within_bind, writei, if_pos device, if_pos console, consoleWrite,
              within_bind] at loop
            have fits := (consoleWriteLoop_confined low bound).mp (loop.mono fun _ _ => trivial)
            simp only [UADDR_SZ, toSigned, toUnsigned] at bound negative fits
            omega
          · intro fits fuel
            by_cases some : ∃ size off, found size off
            · rcases some with ⟨size, off, here⟩
              have fits' := fits trivial trivial size off here
              exact filewriteLoop_confined low bound checked fits' (Or.inr rfl)
            · cases fuel with
              | zero => trivial
              | succ fuel =>
                  rw [filewriteLoop]
                  split
                  · exact ⟨trivial, fun locked here => absurd ⟨locked.1, locked.2, here⟩ some⟩
                  · trivial

/-! ## The calls -/

theorem argptr_iff : argptr sz addr n = true ↔
    addr < sz ∧ (addr + toUnsigned (toSigned 32 n)) % 2 ^ 64 ≤ sz := by
  simp [argptr]

theorem checked_of_argptr (bound : sz ≤ UADDR_SZ) (checked : argptr sz addr n) :
    addr ≤ sz ∧ (0 ≤ toSigned 32 n → addr + toSigned 32 n ≤ sz) := by
  rcases argptr_iff.mp checked with ⟨low, high⟩
  refine ⟨low.le, ?_⟩
  simp only [UADDR_SZ, toSigned, toUnsigned] at bound high ⊢
  omega

/--
Where `argptr` lets the registers pass, `read` stays in the memory of the process
exactly where what it copies fits into it, and `write` but for a count that the
console gets as a negative one.  The size of a process is at most `UADDR_SZ`:
`uvm_alloc` checks it, and `growproc` and `execve` keep it (`Vm.growproc_size`,
`Vm.Executed.ready`).
-/
theorem read_write_confined_iff (bound : sz ≤ UADDR_SZ) (file : Option OpenFile)
    (addr n : UInt64) :
    (Confined sz found (sysRead sz file addr n) ↔
      ∀ f, file = some f → argptr sz addr.toNat n.toNat → f.readable → f.type = .FD_INODE →
        ∀ size off, found size off →
          ReadFits sz f addr.toNat n.toNat size.toNat off.toNat) ∧
    ((∀ fuel, Confined sz found (sysWrite sz file fuel addr n)) ↔
      ∀ f, file = some f → argptr sz addr.toNat n.toNat → f.writable → f.type = .FD_INODE →
        ∀ size off, found size off → WriteFits f n.toNat) := by
  cases file with
  | none =>
      constructor
      · exact iff_of_true trivial (by simp)
      · exact iff_of_true (fun _ => trivial) (by simp)
  | some f =>
      simp only [sysRead, sysWrite, Option.some.injEq, forall_eq']
      cases checked : argptr sz addr.toNat n.toNat with
      | true =>
          rcases checked_of_argptr bound checked with ⟨low, fits⟩
          simp only [if_true, forall_const]
          exact ⟨fileread_confined low bound, filewrite_confined low bound fits⟩
      | false =>
          constructor
          · exact iff_of_true trivial (by simp)
          · exact iff_of_true (fun _ => trivial) (by simp)

/-! ## A count of 2^32 -/

/-- A regular file, open for reading and writing. -/
def regular : OpenFile where
  type := .FD_INODE
  readable := true
  writable := true
  ipType := T_FILE
  major := 0

theorem read_write_confined_iff_regular :
    (Confined 8192 (fun size off => size = 2 ∧ off = 0) (sysRead 8192 (some regular) 8191 1) ↔
      ∀ f, some regular = some f → argptr 8192 8191 1 → f.readable → f.type = .FD_INODE →
        ∀ (size : UInt32) (off : UInt64), size = 2 ∧ off = 0 →
          ReadFits 8192 f 8191 1 size.toNat off.toNat) ∧
    ((∀ fuel, Confined 8192 (fun size off => size = 2 ∧ off = 0)
        (sysWrite 8192 (some regular) fuel 8191 1)) ↔
      ∀ f, some regular = some f → argptr 8192 8191 1 → f.writable → f.type = .FD_INODE →
        ∀ (size : UInt32) (off : UInt64), size = 2 ∧ off = 0 → WriteFits f 1) :=
  read_write_confined_iff (by decide) (some regular) 8191 1

/-- The last byte of the memory and the byte after it get the two bytes of the file. -/
theorem not_read_confined :
    argptr 8192 8191 (2 ^ 32) = true ∧
      ¬ Confined 8192 (fun size off => size = 2 ∧ off = 0)
        (sysRead 8192 (some regular) 8191 (2 ^ 32)) := by
  have checked : argptr 8192 (8191 : UInt64).toNat ((2 ^ 32 : UInt64)).toNat = true := by decide
  refine ⟨by decide, ?_⟩
  simp only [sysRead]
  have low : (8191 : UInt64).toNat ≤ 8192 := by decide
  have bound : 8192 ≤ UADDR_SZ := by decide
  rw [if_pos checked, fileread_confined low bound]
  intro fits
  have copied := fits rfl rfl 2 0 ⟨rfl, rfl⟩
  rw [ReadFits, if_neg (by decide)] at copied
  exact absurd (copied (by decide) (by decide)) (by decide)

end PiKernel.Sys
