import PiKernel.Fs.Files
import PiKernel.Vm.Decode
import PiKernel.Vm.Framing

/-!
# What a failed `execve` leaves

The pages of the caller lie beside those of the new image and stay as they are.  Of the
registers `r1` is set before the last two pieces of the stack are copied, and is lost where
the vector of the arguments does not fit below the strings.
-/

namespace PiKernel.Vm

open PiKernel.Conc
open PiKernel.Conc.Prog (perform)

variable {kernelEnd : Nat} {Pid : Type}

/-! ## The condition -/

/-- The stack of the image has no room for the vector of the arguments, and `r1` is lost. -/
def LosesRegister (file : Option Fs.File) (argv : List (List UInt8)) (r1 free : Nat) : Prop :=
  ∃ ip bytes, file = some ip ∧ readExactly ip 0 ehdrSize = some bytes ∧
    bytes.take 4 = ELFMAG ∧ 0 < free ∧
    SegmentsLoad ip (Clobbers argv r1)
      (programHeaders ip (Ehdr.decode bytes).e_phnum (toInt (Ehdr.decode bytes).e_phoff))
      0 (free - 1)

/-- The caller is as before, but for `r0`: its page table and memory, and its open files. -/
structure Intact (p : Pid) (before after : Machine Pid × Fs.Tables Pid) : Prop where
  pgdir : (after.1.proc p).pgdir = (before.1.proc p).pgdir
  sz : (after.1.proc p).sz = (before.1.proc p).sz
  table : ∀ path : List Nat, path.length ≤ 4 →
    (links after.1.mem).follow (before.1.proc p).pgdir path =
      (links before.1.mem).follow (before.1.proc p).pgdir path
  memory : ∀ (path : List Nat) x, path.length ≤ 4 →
    (links before.1.mem).follow (before.1.proc p).pgdir path = some x →
      after.1.mem x = before.1.mem x
  registers : { (after.1.proc p).tf with r0 := (before.1.proc p).tf.r0 } =
    (before.1.proc p).tf
  cwd : after.2.cwd p = before.2.cwd p
  ofile : after.2.ofile p = before.2.ofile p

/-- Strings that fit into the stack page are harmless. -/
theorem argumentsHarmless_of_fits {base count sp before : Nat} {argv : List (List UInt8)}
    (place : sp + before = base + PGSIZE) (aligned : (base + PGSIZE) % 4 = 0)
    (small : base + PGSIZE < 2 ^ 64) (fits : argv.foldl used before ≤ PGSIZE) :
    ArgumentsHarmless base argv count sp := by
  induction argv generalizing count sp before with
  | nil => exact trivial
  | cons arg argv ih =>
      intro _
      have more : used before arg ≤ argv.foldl used (used before arg) := le_foldl_used
      have taken : before + (arg.length + 1) ≤ used before arg := by
        simp only [used]
        split <;> omega
      rw [List.foldl_cons] at fits
      have within : arg.length + 1 ≤ sp := by omega
      refine ⟨within, fun _ => ih ?_ fits⟩
      rw [below_used within (by omega) (by omega)]
      exact place

theorem page_aligned (n : Nat) : n * PGSIZE % 4 = 0 := by
  simp only [PGSIZE]
  omega

theorem Clobbers.harmless {argv : List (List UInt8)} {r1 sz free : Nat}
    (clobbers : Clobbers argv r1 sz free) : StackHarmless argv sz free := by
  intro small _
  have top : (pages sz + 2) * PGSIZE = (pages sz + 1) * PGSIZE + PGSIZE := by ring
  have fits : stringBytes argv ≤ PGSIZE :=
    (Nat.le_add_right _ _).trans ((Nat.le_add_right _ _).trans clobbers.2.1.2.1)
  have aligned := page_aligned (pages sz + 2)
  have low : (pages sz + 2) * PGSIZE < 2 ^ 64 := lt_trans small (by decide)
  rw [top] at aligned low
  have place : (pages sz + 2) * PGSIZE + 0 = (pages sz + 1) * PGSIZE + PGSIZE :=
    (Nat.add_zero _).trans top
  exact argumentsHarmless_of_fits place aligned low fits

theorem LosesRegister.harmless {file : Option Fs.File} {argv : List (List UInt8)}
    {r1 free : Nat} (loses : LosesRegister file argv r1 free) : Harmless file argv free := by
  rcases loses with ⟨ip, bytes, rfl, read, magic, some, load⟩
  intro ip' same bytes' read' _
  cases same
  rw [read] at read'
  cases read'
  exact ⟨some, load.harmless fun _ _ => Clobbers.harmless⟩

/-! ## A failed call -/

section Execve

variable [DecidableEq Pid] {p : Pid} {s s' : Machine Pid} {argv : List (List UInt8)}
  {file : Option Fs.File}

/-- The pages of `s` are still there in `s'`. -/
def Machine.Beside (kernelEnd : Nat) (p : Pid) (s s' : Machine Pid) (h : Heap kernelEnd) : Prop :=
  s'.view kernelEnd p = h.join (s.view kernelEnd p) ∧ h.Apart (s.view kernelEnd p)

/-- The rules for what lies beside the pages of `s`. -/
def besideRules (kernelEnd : Nat) (p : Pid) (s : Machine Pid) : Rules kernelEnd Pid :=
  (aloneRules kernelEnd p fun _ => True).framed (s.view kernelEnd p) rfl

/-- A program on the pages beside those of `s`. -/
theorem Machine.Beside.leaves {α : Type} {s₁ : Machine Pid} {h : Heap kernelEnd}
    {program : Prog (Act Pid) α} {post : α → Heap kernelEnd → Prop}
    (beside : s.Beside kernelEnd p s₁ h) (sound : s₁.Sound kernelEnd)
    (rule : (besideRules kernelEnd p s).wp program h post) :
    machine.Leaves p
      (fun value s' => s'.Sound kernelEnd ∧ s₁.Framed p s' ∧
        ∃ h', s.Beside kernelEnd p s' h' ∧ post value h') program s₁ := by
  have whole := rule beside.2
  rw [← beside.1] at whole
  refine (sound.ends whole).leaves.mono ?_
  rintro value s' ⟨sound', framed, h', joined, apart, holds⟩
  exact ⟨sound', framed, h', ⟨joined, apart⟩, holds⟩

/-- A call that fails leaves the pages, and the registers as `Kept` says. -/
structure Failed (kernelEnd : Nat) (p : Pid) (Q : Prop) (s s' : Machine Pid) : Prop where
  framed : s.Framed p s'
  beside : ∃ h, s.Beside kernelEnd p s' h
  kept : Kept Q (s.proc p).tf (s'.proc p).tf

omit [DecidableEq Pid] in
theorem Machine.Beside.refl : s.Beside kernelEnd p s (s.view kernelEnd p).bare :=
  ⟨Heap.bare_join.symm, Heap.bare_apart⟩

omit [DecidableEq Pid] in
theorem Machine.Beside.tf {h : Heap kernelEnd} (beside : s.Beside kernelEnd p s' h) :
    (s'.proc p).tf = h.tf :=
  congrArg Heap.tf beside.1

omit [DecidableEq Pid] in
theorem Failed.refl {Q : Prop} (not : ¬ Q) : Failed kernelEnd p Q s s :=
  ⟨.refl, ⟨_, .refl⟩, .same rfl not⟩

theorem image_keeps {Q : Prop} {ip : Fs.File} {elf : Ehdr} (ready : s.Ready kernelEnd p)
    (short : ∀ arg, arg ∈ argv → arg.length + 1 ≤ UADDR_SZ)
    (meaning : Q ↔ 0 < s.freeList.length ∧
      SegmentsLoad ip (Clobbers argv (s.proc p).tf.r1)
        (programHeaders ip elf.e_phnum (toInt elf.e_phoff)) 0 (s.freeList.length - 1)) :
    machine.Leaves p
      (fun result s' => (result = none → Failed kernelEnd p Q s s') ∧
        (∀ argc : Nat, result = some argc → ¬ Q))
      (do
        let pgdir ← pgdirInit
        match ← loadImage kernelEnd p pgdir ip elf argv with
        | none =>
            vmFree kernelEnd pgdir 1
            return none
        | some (sz, sp) =>
            let proc ← perform (.proc p)
            perform (.setPgdir p pgdir)
            perform (.setSz p sz)
            perform (.setTf p { proc.tf with sp := sp, elr := elf.e_entry })
            vmFree kernelEnd proc.pgdir 1
            return some proc.tf.r0) s := by
  let R := besideRules kernelEnd p s
  have allowed : ∀ message, R.mayPanic message := fun _ => trivial
  have more : ∀ roots, R.live ⊆ roots := fun roots => Set.empty_subset roots
  have init : R.wp pgdirInit (s.view kernelEnd p).bare fun pgdir h =>
      h.Keeps (insert (pgdir, 4) ∅) ∧ Span h pgdir (pages 0) (fun _ => true) ∧
        0 < s.freeList.length ∧ h.supply = some (s.freeList.length - 1) ∧
        h.tf = (s.proc p).tf := by
    apply pgdirInit_keeps Heap.keeps_nothing (more _)
    · exact fun _ => allowed _
    · intro pgdir usable new full keeps
      have some : s.freeList.length ≠ 0 := fun none => full (congrArg Option.some none)
      exact ⟨keeps, Span.empty Heap.take_page_same, by omega, rfl, rfl⟩
  refine System.Leaves.bind ((Machine.Beside.refl.leaves ready.sound init).mono ?_)
  rintro pgdir s₁ ⟨sound₁, framed₁, h₁, beside₁, keeps₁, span₁, some, supply₁, tf₁⟩
  have load : R.wp (loadImage kernelEnd p pgdir ip elf argv) h₁ fun result h =>
      h.Keeps (insert (pgdir, 4) ∅) ∧ (result = none → Kept Q h₁.tf h.tf) ∧
        ∀ image, result = Option.some image → ¬ Q := by
    have self : R.self = p := rfl
    rw [← self]
    apply loadImage_loaded (P := SegmentsHarmless ip _ _ 0 (s.freeList.length - 1)) (Q := Q)
      ready.kernel keeps₁ (more _) (Or.inl rfl) span₁ short
    · intro free supply
      rw [supply₁] at supply
      cases supply
      exact Iff.rfl
    · intro free supply
      rw [supply₁] at supply
      cases supply
      rw [tf₁, meaning]
      exact ⟨And.right, fun rest => ⟨some, rest⟩⟩
    · exact fun _ => allowed
    · exact fun h keeps _ kept => ⟨keeps, fun _ => kept _ supply₁, fun _ same => by cases same⟩
    · exact fun h sz sp keeps _ _ not =>
        ⟨keeps, fun same => by (cases same), fun _ _ => not _ supply₁⟩
  refine System.Leaves.bind ((beside₁.leaves sound₁ load).mono ?_)
  rintro result s₂ ⟨sound₂, framed₂, h₂, beside₂, keeps₂, kept, not⟩
  cases result with
  | some image =>
      apply System.Leaves.step
      intro proc s₃ _
      apply System.Leaves.step
      intro _ s₄ _
      apply System.Leaves.step
      intro _ s₅ _
      apply System.Leaves.step
      intro _ s₆ _
      apply System.Leaves.bind
      apply System.Leaves.always
      intro _ s₇
      exact .ret ⟨fun same => by (cases same), fun _ _ => not image rfl⟩
  | none =>
      have outside : ∀ height, (pgdir, height) ∉ (∅ : Set (Nat × Nat)) := fun _ => id
      apply System.Leaves.bind
      refine (beside₂.leaves sound₂ (vmFree_frees keeps₂ outside (more _))).mono ?_
      rintro _ s' ⟨sound', framed', h', beside', lacks⟩
      refine .ret ⟨fun _ => ⟨(framed₁.trans framed₂).trans framed', ⟨h', beside'⟩, ?_⟩,
        fun _ same => by cases same⟩
      rw [beside'.tf, lacks.tf, ← tf₁]
      exact kept rfl

theorem execve_keeps (ready : s.Ready kernelEnd p)
    (args : ∀ arg, arg ∈ argv → arg.length + 1 ≤ (s.proc p).sz) :
    machine.Leaves p
      (fun result s' =>
        (result = none → Failed kernelEnd p
          (LosesRegister file argv (s.proc p).tf.r1 s.freeList.length) s s') ∧
        (∀ argc : Nat, result = some argc →
          ¬ LosesRegister file argv (s.proc p).tf.r1 s.freeList.length))
      (execve kernelEnd p file argv) s := by
  have short : ∀ arg, arg ∈ argv → arg.length + 1 ≤ UADDR_SZ :=
    fun arg member => (args arg member).trans ready.size.le
  -- Without an executable file nothing is done.
  have refused : (¬ LosesRegister file argv (s.proc p).tf.r1 s.freeList.length) →
      machine.Leaves p
        (fun result s' =>
          (result = none → Failed kernelEnd p
            (LosesRegister file argv (s.proc p).tf.r1 s.freeList.length) s s') ∧
          (∀ argc : Nat, result = some argc →
            ¬ LosesRegister file argv (s.proc p).tf.r1 s.freeList.length))
        (.ret none) s :=
    fun not => .ret ⟨fun _ => .refl not, fun _ _ => not⟩
  cases file with
  | none =>
      apply refused
      rintro ⟨ip, bytes, none, _⟩
      cases none
  | some ip =>
      rw [execve]
      cases read : readExactly ip 0 ehdrSize with
      | none =>
          apply refused
          rintro ⟨ip', bytes, same, read', _⟩
          cases same
          rw [read] at read'
          cases read'
      | some bytes =>
          simp only
          by_cases magic : bytes.take 4 ≠ ELFMAG
          · rw [if_pos magic]
            apply refused
            rintro ⟨ip', bytes', same, read', magic', _⟩
            cases same
            rw [read] at read'
            cases read'
            exact magic magic'
          · rw [if_neg magic]
            apply image_keeps ready short
            constructor
            · rintro ⟨ip', bytes', same, read', _, load⟩
              cases same
              rw [read] at read'
              cases read'
              exact load
            · exact fun load => ⟨ip, bytes, rfl, read, not_not.mp magic, load⟩

omit [DecidableEq Pid] in
/-- The caller's tree lies in the pages that stay. -/
theorem Failed.tree {Q : Prop} {x : Nat} {path : List Nat} (failed : Failed kernelEnd p Q s s')
    (ready : s.Ready kernelEnd p) (short : path.length ≤ 4)
    (found : (links s.mem).follow (s.proc p).pgdir path = some x) :
    s'.mem x = s.mem x := by
  rcases failed.beside with ⟨h, joined, apart⟩
  rw [Machine.follow_view ready.keeps rfl short] at found
  rcases Heap.mem_owned.mp (Forest.mem ready.keeps _ 4 rfl path x short found) with ⟨page, here⟩
  have there : (s'.view kernelEnd p).page x = some page := by
    rw [joined]
    exact Heap.join_page_frame apart here
  rw [(Machine.view_page_eq_some here).2.2, (Machine.view_page_eq_some there).2.2]

omit [DecidableEq Pid] in
/-- All but the register `r1` is certain. -/
theorem Failed.intact {Q : Prop} {files : Fs.Tables Pid} (failed : Failed kernelEnd p Q s s')
    (ready : s.Ready kernelEnd p)
    (registers : { (s'.proc p).tf with r0 := (s.proc p).tf.r0 } = (s.proc p).tf) :
    Intact p (s, files) (s', files) where
  pgdir := by rw [failed.framed.self]
  sz := by rw [failed.framed.self]
  table path short := by
    refine Links.follow_congr ?_ short
    intro before y shorter found
    rw [links, links, failed.tree ready shorter.le found]
  memory _ _ short found := failed.tree ready short found
  registers := registers
  cwd := rfl
  ofile := rfl

/--
All calls that fail leave the caller as it was, exactly where the condition for the loss of
`r1` does not hold.
-/
theorem execve_intact_iff {files : Fs.Tables Pid} (ready : s.Ready kernelEnd p)
    (args : ∀ arg, arg ∈ argv → arg.length + 1 ≤ (s.proc p).sz) :
    (∀ after, (machine.beside (Fs.Tables Pid)).Completes p (execve kernelEnd p file argv)
        (s, files) none after → Intact p (s, files) after) ↔
      ¬ LosesRegister file argv (s.proc p).tf.r1 s.freeList.length := by
  constructor
  · intro intact loses
    have completes : machine.Ends p (fun _ => False)
        (fun result s' => Executed kernelEnd p s argv result s')
        (execve kernelEnd p file argv) s :=
      (execve_ends ready args).mono (fun _ wrong => wrong loses.harmless) fun _ _ => And.right
    rcases completes.completes with ⟨result, s', done, _⟩
    have left := (execve_keeps ready args).of_completes done
    cases result with
    | some argc => exact left.2 argc rfl loses
    | none =>
        have same := (intact (s', files) (System.completes_beside.mpr ⟨done, rfl⟩)).registers
        have lost := congrArg Trapframe.r1 same
        exact (left.1 rfl).kept.1 loses lost
  · rintro keeps ⟨s', files'⟩ done
    rcases System.completes_beside.mp done with ⟨done', rfl⟩
    have failed := ((execve_keeps ready args).of_completes done').1 rfl
    rcases failed.kept.2 keeps with ⟨r0, same⟩
    apply failed.intact ready
    rw [same]

end Execve

/-! ## A string that fills the stack page -/

/-- No process has opened a file. -/
def noFiles : Fs.Tables Unit where
  inum _ := 0
  ref _ := 0
  valid _ := false
  lock _ := none
  ftable _ :=
    { type := .FD_NONE, ref := 0, readable := false, writable := false, ip := none, off := 0 }
  ofile _ _ := none
  cwd _ := none
  born _ := true
  hold _ _ := 0
  fhold _ _ := 0
  frees _ := false

/-- The string takes 4040 bytes of the page. -/
def longArgument : List UInt8 := List.replicate 4039 97

/-- A file that ends before its program header. -/
def truncated : Fs.File :=
  { misaligned with size := 64 }

theorem truncated_completes :
    ∃ s', machine.Completes () (execve 1 () (some truncated) [sh]) caller none s' := by
  have read : readExactly truncated 0 ehdrSize =
      some ((readExactly truncated 0 ehdrSize).get (by decide +kernel)) :=
    (Option.some_get _).symm
  have headers : programHeaders truncated
      (Ehdr.decode ((readExactly truncated 0 ehdrSize).get (by decide))).e_phnum
      (toInt (Ehdr.decode ((readExactly truncated 0 ehdrSize).get
        (by decide))).e_phoff) = [none] := by decide
  have segments : machine.Completes () (loadSegments 1 started.1 truncated (programHeaders truncated
      (Ehdr.decode ((readExactly truncated 0 ehdrSize).get (by decide))).e_phnum
      (toInt (Ehdr.decode ((readExactly truncated 0 ehdrSize).get
        (by decide))).e_phoff)) 0) started.2 none started.2 := by
    rw [headers]
    exact .refl _ _
  exact execve_fails caller_ready sh_inside read (by decide) caller_starts segments

/-- Without its program header the file is refused, after the new root has been allocated. -/
theorem execve_intact_iff_caller :
    ∃ after, (machine.beside (Fs.Tables Unit)).Completes () (execve 1 () (some truncated) [sh])
        (caller, noFiles) none after ∧ Intact () (caller, noFiles) after := by
  rcases truncated_completes with ⟨s', done⟩
  have completes : (machine.beside (Fs.Tables Unit)).Completes ()
      (execve 1 () (some truncated) [sh]) (caller, noFiles) none (s', noFiles) :=
    System.completes_beside.mpr ⟨done, rfl⟩
  refine ⟨_, completes, (execve_intact_iff caller_ready sh_inside).mpr ?_ _ completes⟩
  rintro ⟨ip, bytes, same, read, _, _, segments⟩
  obtain rfl : truncated = ip := Option.some.inj same
  have headers : (readExactly truncated 0 ehdrSize).map (fun bytes =>
      programHeaders truncated (Ehdr.decode bytes).e_phnum (toInt (Ehdr.decode bytes).e_phoff)) =
        some [none] := by
    decide
  rw [read, Option.map_some] at headers
  rw [Option.some.inj headers] at segments
  exact segments

/-- After the string, the vectors without that of the arguments still fit. -/
theorem losesRegister_longArgument :
    LosesRegister (some noSegments) [longArgument] (caller.proc ()).tf.r1
      caller.freeList.length := by
  have bytes : readExactly noSegments 0 ehdrSize =
      some ((readExactly noSegments 0 ehdrSize).get (by decide)) :=
    (Option.some_get _).symm
  have free : caller.freeList.length = 7 := by decide
  have phnum : (Ehdr.decode ((readExactly noSegments 0 ehdrSize).get
      (by decide))).e_phnum = 0 := by decide
  have r1 : (caller.proc ()).tf.r1 = 0 := by decide +kernel
  have length : longArgument.length = 4039 := List.length_replicate
  have string : stringBytes [longArgument] = 4040 := by
    simp only [stringBytes, List.foldl_cons, List.foldl_nil, used, length]
    decide
  refine ⟨noSegments, _, rfl, bytes, by decide, by rw [free]; decide, ?_⟩
  rw [phnum, free, r1]
  refine ⟨by constructor <;> decide, ⟨by decide, ?_, ?_⟩, ?_⟩
  · rw [string]
    decide
  · rw [string]
    decide
  · rw [argvAddress, string]
    decide

/-- The register `r1` of the caller is the address of the vector that did not fit. -/
theorem not_execve_intact_longArgument :
    caller.Ready 1 () ∧ longArgument.length + 1 ≤ (caller.proc ()).sz ∧
      ∃ after, (machine.beside (Fs.Tables Unit)).Completes ()
        (execve 1 () (some noSegments) [longArgument]) (caller, noFiles) none after ∧
          ¬ Intact () (caller, noFiles) after := by
  have length : longArgument.length = 4039 := List.length_replicate
  have size : (caller.proc ()).sz = PGSIZE := by decide
  have inside : longArgument.length + 1 ≤ (caller.proc ()).sz := by
    rw [length, size]
    decide
  refine ⟨caller_ready, inside, ?_⟩
  by_contra! intact
  have args : ∀ arg, arg ∈ [longArgument] → arg.length + 1 ≤ (caller.proc ()).sz := by
    intro arg member
    rw [List.mem_singleton.mp member]
    exact inside
  exact (execve_intact_iff caller_ready args).mp intact losesRegister_longArgument

end PiKernel.Vm
