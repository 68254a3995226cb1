import PiKernel.Vm.Decode
import PiKernel.Vm.Untouched

/-!
# The alignment of the initial stack pointer

`execve` clears bit 1 of the address of every argument string, and pads the vectors to a
multiple of 16 bytes.  What is left of the alignment is decided by the lengths of the
strings alone, whatever is in memory.
-/

namespace PiKernel.Vm

open PiKernel.Conc
open PiKernel.Conc.Prog (perform)

/-! ## Address arithmetic -/

theorem sub64_mod {a b : Nat} (fits : b ≤ 2 ^ 64) : (sub64 a b + b) % 16 = a % 16 := by
  rw [sub64]
  omega

theorem align_mod {sp n : Nat} (fits : sp < 2 ^ 64) (start : (sp + n) % 16 = 0) :
    (align sp + (if n % 4 = 1 ∨ n % 4 = 2 then n + 2 else n)) % 16 = 0 := by
  rw [align_eq fits]
  split <;> omega

variable {kernelEnd : Nat} {Pid : Type} [DecidableEq Pid] {p self : Pid} {s s' : Machine Pid}
  {pgdir sp sz before : Nat} {argv : List (List UInt8)} {ustack : List Nat}

/-! ## The user stack -/

/-- The strings are pushed below the `before` bytes that are taken. -/
theorem pushArguments_leaves (strings : ∀ arg ∈ argv, arg.length < 2 ^ 64)
    (few : ustack.length ≤ MAXARG) (start : (sp + before) % 16 = 0) :
    machine.Leaves p
      (fun result _ => ∀ sp' addresses, result = some (sp', addresses) →
        addresses.length ≤ MAXARG ∧ (sp' + argv.foldl used before) % 16 = 0)
      (pushArguments pgdir argv ustack sp) s := by
  induction argv generalizing s ustack sp before with
  | nil =>
      apply System.Leaves.ret
      rintro sp' addresses same
      cases same
      exact ⟨few, start⟩
  | cons arg argv ih =>
      rw [pushArguments]
      split
      · apply System.Leaves.ret
        rintro sp' addresses same
        cases same
      · apply System.Leaves.bind
        apply System.Leaves.always
        rintro copied s'
        cases copied with
        | false =>
            apply System.Leaves.ret
            rintro sp' addresses same
            cases same
        | true =>
            have short := strings arg (List.mem_cons_self ..)
            have below : sub64 sp (arg.length + 1) < 2 ^ 64 := Nat.mod_lt _ (by norm_num)
            have moved : (sub64 sp (arg.length + 1) + (arg.length + 1)) % 16 = sp % 16 :=
              sub64_mod short
            apply ih fun arg' member => strings arg' (List.mem_cons_of_mem _ member)
            · rw [List.length_append, List.length_singleton]
              omega
            · apply align_mod below
              omega

/-- A piece of the stack is written, or the call fails. -/
theorem copyout_leaves {α : Type} {va : Nat} {buf : List UInt8}
    {post : Option α → Machine Pid → Prop} {next : Prog (Act Pid) (Option α)}
    (fail : ∀ s', post none s') (done : ∀ s', machine.Leaves p post next s') :
    machine.Leaves p post
      (do
        if ← copyout pgdir va buf then
          next
        else
          return none) s := by
  apply System.Leaves.bind
  apply System.Leaves.always
  intro copied s'
  cases copied with
  | true => exact done s'
  | false => exact .ret (fail s')

/-- The vectors, with the word that pads them, take a multiple of 16 bytes. -/
theorem pushVectors_leaves (few : ustack.length ≤ MAXARG) :
    machine.Leaves p (fun result _ => ∀ sp', result = some sp' → sp' % 16 = sp % 16)
      (pushVectors self pgdir ustack sp) s := by
  let padded := if ustack.length % 2 = 0 then sub64 sp 8 else sp
  have padding : (padded + 8 * (ustack.length + 1)) % 16 = sp % 16 := by
    have moved := sub64_mod (a := sp) (by decide : 8 ≤ 2 ^ 64)
    simp only [padded]
    split <;> omega
  have words : (ustack.length + 1) * 8 ≤ 2 ^ 64 := by
    simp only [MAXARG] at few
    omega
  have auxv := sub64_mod (a := padded) (by decide : 32 ≤ 2 ^ 64)
  have envp := sub64_mod (a := sub64 padded 32) (by decide : 8 ≤ 2 ^ 64)
  have vector := sub64_mod (a := sub64 (sub64 padded 32) 8) words
  have count := sub64_mod (a := sub64 (sub64 (sub64 padded 32) 8) ((ustack.length + 1) * 8))
    (by decide : 8 ≤ 2 ^ 64)
  have refused : ∀ sp', (none : Option Nat) = some sp' → sp' % 16 = sp % 16 := by
    intro sp' same
    cases same
  apply System.Leaves.step
  intro proc s₁ _
  apply System.Leaves.step
  intro _ s₂ _
  apply copyout_leaves fun _ => refused
  intro s₃
  apply copyout_leaves fun _ => refused
  intro s₄
  apply System.Leaves.step
  intro proc' s₅ _
  apply System.Leaves.step
  intro _ s₆ _
  apply copyout_leaves fun _ => refused
  intro s₇
  apply System.Leaves.step
  intro proc'' s₈ _
  apply copyout_leaves fun _ => refused
  intro s₉
  apply System.Leaves.ret
  intro sp' same
  have equal := Option.some.inj same
  change sub64 (sub64 (sub64 (sub64 padded 32) 8) ((ustack.length + 1) * 8)) 8 = sp' at equal
  omega

theorem uvmAlloc_leaves {oldsz newsz : Nat} :
    machine.Leaves p (fun result _ => result = 0 ∨ result = oldsz ∨ result = newsz)
      (uvmAlloc kernelEnd pgdir oldsz newsz) s := by
  rw [uvmAlloc]
  split
  · exact .ret (Or.inl rfl)
  · split
    · exact .ret (Or.inr (Or.inl rfl))
    · apply System.Leaves.bind
      apply System.Leaves.always
      intro allocated s'
      cases allocated with
      | true => exact .ret (Or.inr (Or.inr rfl))
      | false => exact .ret (Or.inl rfl)

theorem userStack_leaves (strings : ∀ arg ∈ argv, arg.length < 2 ^ 64) :
    machine.Leaves p
      (fun result _ => ∀ sz' sp', result = some (sz', sp') → (sp' + stringBytes argv) % 16 = 0)
      (userStack kernelEnd self pgdir argv sz) s := by
  have refused : ∀ sz' sp', (none : Option (Nat × Nat)) = some (sz', sp') →
      (sp' + stringBytes argv) % 16 = 0 := by
    intro sz' sp' same
    cases same
  have start := ROUNDUP_aligned sz PGSIZE
  rw [userStack]
  refine System.Leaves.bind (uvmAlloc_leaves.mono ?_)
  intro top s₁ value
  have aligned : (top + 0) % 16 = 0 := by
    simp only [PGSIZE] at start value
    omega
  split
  · exact .ret refused
  · refine System.Leaves.bind (System.Leaves.always ?_)
    intro _ s₂
    refine System.Leaves.bind ((pushArguments_leaves strings (Nat.zero_le _) aligned).mono ?_)
    intro pushed s₃ below
    cases pushed with
    | none => exact .ret refused
    | some pushed =>
        rcases pushed with ⟨sp, ustack⟩
        rcases below sp ustack rfl with ⟨few, strung⟩
        refine System.Leaves.bind ((pushVectors_leaves few).mono ?_)
        intro placed s₄ padded
        cases placed with
        | none => exact .ret refused
        | some sp' =>
            apply System.Leaves.ret
            intro sz' sp'' same
            cases same
            have equal := padded sp' rfl
            rw [stringBytes]
            omega

/-! ## `execve` -/

theorem loadImage_leaves {ip : Fs.File} {elf : Ehdr}
    (strings : ∀ arg ∈ argv, arg.length < 2 ^ 64) :
    machine.Leaves p
      (fun result _ => ∀ sz' sp', result = some (sz', sp') → (sp' + stringBytes argv) % 16 = 0)
      (loadImage kernelEnd self pgdir ip elf argv) s := by
  refine System.Leaves.bind (System.Leaves.always ?_)
  intro loaded s'
  cases loaded with
  | none =>
      apply System.Leaves.ret
      intro sz' sp' same
      cases same
  | some sz => exact userStack_leaves strings

/-- The stack pointer of the new image. -/
theorem execve_leaves {file : Option Fs.File} (strings : ∀ arg ∈ argv, arg.length < 2 ^ 64) :
    machine.Leaves p
      (fun result s' => ∀ argc, result = some argc →
        ((s'.proc p).tf.sp + stringBytes argv) % 16 = 0)
      (execve kernelEnd p file argv) s := by
  have refused : ∀ (s' : Machine Pid) argc, (none : Option Nat) = some argc →
      ((s'.proc p).tf.sp + stringBytes argv) % 16 = 0 := by
    intro s' argc same
    cases same
  cases file with
  | none => exact .ret (refused s)
  | some ip =>
      rw [execve]
      cases readExactly ip 0 ehdrSize with
      | none => exact .ret (refused s)
      | some bytes =>
          dsimp only
          split
          · exact .ret (refused s)
          · refine System.Leaves.bind (System.Leaves.always ?_)
            intro pgdir s₁
            refine System.Leaves.bind ((loadImage_leaves strings).mono ?_)
            intro image s₂ placed
            cases image with
            | none =>
                refine System.Leaves.bind (System.Leaves.always ?_)
                intro _ s₃
                exact .ret (refused s₃)
            | some image =>
                rcases image with ⟨sz, sp⟩
                have aligned := placed sz sp rfl
                refine System.Leaves.step fun proc s₃ _ => ?_
                refine System.Leaves.step fun _ s₄ _ => ?_
                refine System.Leaves.step fun _ s₅ _ => ?_
                refine System.Leaves.step fun _ s₆ effect => ?_
                simp only [machine, exec, Outcome.done.injEq, true_and] at effect
                refine System.Leaves.bind ((proc_leaves vmFree_only).mono ?_)
                intro _ s₇ kept
                apply System.Leaves.ret
                intro argc _
                simp only [kept, ← effect, Machine.setProc, Function.update_self]
                exact aligned

/--
After a call that succeeds the stack pointer is a multiple of 16 exactly where the strings,
with the bytes that are skipped between them, fill a multiple of 16 bytes.
-/
theorem execve_aligned_iff {file : Option Fs.File} {argc : Nat}
    (strings : ∀ arg ∈ argv, arg.length < 2 ^ 64)
    (done : machine.Completes p (execve kernelEnd p file argv) s (some argc) s') :
    (s'.proc p).tf.sp % 16 = 0 ↔ stringBytes argv % 16 = 0 := by
  have sum := (execve_leaves strings).of_completes done argc rfl
  omega

/-! ## A command without arguments -/

theorem execve_aligned_iff_sh :
    ∃ s', machine.Completes () (execve 1 () (some noSegments) [sh]) caller (some 1) s' ∧
      ((s'.proc ()).tf.sp % 16 = 0 ↔ stringBytes [sh] % 16 = 0) := by
  rcases sh_completes with ⟨s', done⟩
  exact ⟨s', done, execve_aligned_iff (by simp [sh]) done⟩

/-- Three bytes are taken for the string, and the mask lets the address end in 13. -/
theorem sh_not_aligned :
    ∃ s', machine.Completes () (execve 1 () (some noSegments) [sh]) caller (some 1) s' ∧
      (s'.proc ()).tf.sp % 16 ≠ 0 := by
  rcases sh_completes with ⟨s', done⟩
  refine ⟨s', done, ?_⟩
  have sum := (execve_leaves (by simp [sh])).of_completes done 1 rfl
  have three : stringBytes [sh] = 3 := by decide
  omega

end PiKernel.Vm
