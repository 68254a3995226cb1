import Mathlib.Data.Fintype.Basic
import Mathlib.Logic.Function.Basic
import Mathlib.Tactic.FinCases

/-!
# Registers, stacks and instructions

The instructions that save and restore registers on a stack.  Memory is given by its
words of eight bytes, and a stack grows down by two words at a time.
-/

namespace PiKernel.Trap

/-- The words of memory, by their addresses. -/
abbrev Mem := Nat → UInt64

/-! ## Words on a stack -/

/-- These words are in memory, from `sp` upwards. -/
def Words (mem : Mem) (sp : Nat) (ws : List UInt64) : Prop :=
  ∀ k (below : k < ws.length), mem (sp + 8 * k) = ws[k]

/-- `stp a, b, [sp, #-16]!` -/
def push (mem : Mem) (sp : Nat) (a b : UInt64) : Mem :=
  Function.update (Function.update mem (sp - 16) a) (sp - 8) b

/-- Some pairs are pushed, the first one first. -/
def pushAll (mem : Mem) (sp : Nat) : List (UInt64 × UInt64) → Mem
  | [] => mem
  | (a, b) :: rest => pushAll (push mem sp a b) (sp - 16) rest

/-- The words that these pushes leave, from the new stack pointer upwards. -/
def pushed : List (UInt64 × UInt64) → List UInt64 → List UInt64
  | [], ws => ws
  | (a, b) :: rest, ws => pushed rest (a :: b :: ws)

section Stack

variable {mem mem' : Mem} {sp addr : Nat} {a b : UInt64} {ws : List UInt64}
  {pairs : List (UInt64 × UInt64)}

theorem Words.congr (words : Words mem sp ws)
    (same : ∀ addr, sp ≤ addr → addr < sp + 8 * ws.length → mem' addr = mem addr) :
    Words mem' sp ws := by
  intro k below
  rw [same _ (by omega) (by omega)]
  exact words k below

theorem push_other (outside : addr < sp - 16 ∨ sp ≤ addr) (room : 16 ≤ sp) :
    push mem sp a b addr = mem addr := by
  unfold push
  rw [Function.update_of_ne (by omega), Function.update_of_ne (by omega)]

theorem Words.push (words : Words mem sp ws) (room : 16 ≤ sp) :
    Words (push mem sp a b) (sp - 16) (a :: b :: ws) := by
  intro k below
  match k, below with
  | 0, _ =>
      unfold Trap.push
      rw [Function.update_of_ne (by omega)]
      exact Function.update_self ..
  | 1, _ =>
      have second : sp - 16 + 8 * 1 = sp - 8 := by omega
      rw [second]
      exact Function.update_self ..
  | k + 2, below =>
      have old : sp - 16 + 8 * (k + 2) = sp + 8 * k := by omega
      rw [old, push_other (Or.inr (Nat.le_add_right ..)) room]
      exact words k (by simpa using below)

theorem pushAll_other (outside : addr < sp - 16 * pairs.length ∨ sp ≤ addr)
    (room : 16 * pairs.length ≤ sp) : pushAll mem sp pairs addr = mem addr := by
  induction pairs generalizing mem sp with
  | nil => rfl
  | cons pair rest ih =>
      rw [List.length_cons] at outside room
      rw [pushAll, ih (by omega) (by omega), push_other (by omega) (by omega)]

theorem Words.pushAll (words : Words mem sp ws) (room : 16 * pairs.length ≤ sp) :
    Words (pushAll mem sp pairs) (sp - 16 * pairs.length) (pushed pairs ws) := by
  induction pairs generalizing mem sp ws with
  | nil => exact words
  | cons pair rest ih =>
      rw [List.length_cons] at room ⊢
      have next := ih (words.push (a := pair.1) (b := pair.2) (by omega)) (by omega)
      have place : sp - 16 - 16 * rest.length = sp - 16 * (rest.length + 1) := by omega
      rwa [place] at next

theorem pushAll_append {more : List (UInt64 × UInt64)} :
    pushAll mem sp (pairs ++ more) =
      pushAll (pushAll mem sp pairs) (sp - 16 * pairs.length) more := by
  induction pairs generalizing mem sp with
  | nil => rfl
  | cons pair rest ih =>
      have place : sp - 16 - 16 * rest.length = sp - 16 * (rest.length + 1) := by omega
      rw [List.cons_append, pushAll, ih, pushAll, List.length_cons, place]

end Stack

/-! ## Instructions -/

instance neZero_x : @NeZero Nat Zero.ofOfNat0 31 :=
  ⟨Nat.succ_ne_zero _⟩

instance neZero_q : @NeZero Nat Zero.ofOfNat0 32 :=
  ⟨Nat.succ_ne_zero _⟩

/-- The system registers that belong to the state of a user process. -/
inductive Sys where
  | sp_el0
  | spsr_el1
  | elr_el1
  | tpidr_el0
  deriving DecidableEq

/-- `sp` is the stack pointer of the kernel, and `q` are pairs of words, the low one first. -/
structure Regs where
  x : Fin 31 → UInt64
  sp : Nat
  sys : Sys → UInt64
  q : Fin 32 → UInt64 × UInt64

inductive Instr where
  /-- `stp a, b, [sp, #-16]!` -/
  | stp (a b : Fin 31)
  /-- `ldp a, b, [sp], #16` -/
  | ldp (a b : Fin 31)
  /-- `str a, [sp, #-16]!` for a register of 128 bits. -/
  | strq (a : Fin 32)
  /-- `ldr a, [sp], #16` for a register of 128 bits. -/
  | ldrq (a : Fin 32)
  | mrs (a : Fin 31) (s : Sys)
  | msr (s : Sys) (a : Fin 31)
  /-- `mov a, sp` -/
  | movFromSp (a : Fin 31)
  /-- `mov sp, a` -/
  | movToSp (a : Fin 31)
  /-- `str a, [b]` -/
  | str (a b : Fin 31)

/-- What two words leave in a register that is both destinations of `ldp`. -/
abbrev Pair := UInt64 → UInt64 → UInt64

section Code

variable (pair : Pair)

/--
The architecture leaves `ldp a, a` open.  The processor executes it as a load, and `pair` is
what it loads.
-/
def Instr.exec : Instr → Regs × Mem → Regs × Mem
  | .stp a b, (r, mem) => ({ r with sp := r.sp - 16 }, push mem r.sp (r.x a) (r.x b))
  | .ldp a b, (r, mem) =>
      ({ r with
          x :=
            if a = b then
              Function.update r.x a (pair (mem r.sp) (mem (r.sp + 8)))
            else
              Function.update (Function.update r.x a (mem r.sp)) b (mem (r.sp + 8))
          sp := r.sp + 16 }, mem)
  | .strq a, (r, mem) => ({ r with sp := r.sp - 16 }, push mem r.sp (r.q a).1 (r.q a).2)
  | .ldrq a, (r, mem) =>
      ({ r with
          q := Function.update r.q a (mem r.sp, mem (r.sp + 8))
          sp := r.sp + 16 }, mem)
  | .mrs a s, (r, mem) => ({ r with x := Function.update r.x a (r.sys s) }, mem)
  | .msr s a, (r, mem) => ({ r with sys := Function.update r.sys s (r.x a) }, mem)
  | .movFromSp a, (r, mem) => ({ r with x := Function.update r.x a (UInt64.ofNat r.sp) }, mem)
  | .movToSp a, (r, mem) => ({ r with sp := (r.x a).toNat }, mem)
  | .str a b, (r, mem) => (r, Function.update mem (r.x b).toNat (r.x a))

/-- A sequence of instructions. -/
def run (code : List Instr) (state : Regs × Mem) : Regs × Mem :=
  code.foldl (fun state instr => instr.exec pair state) state

variable {pair}

theorem run_append {first second : List Instr} {state : Regs × Mem} :
    run pair (first ++ second) state = run pair second (run pair first state) :=
  List.foldl_append

/-- Registers that are pushed keep their values. -/
theorem run_stp (pairs : List (Fin 31 × Fin 31)) (r : Regs) (mem : Mem) :
    run pair (pairs.map fun pair => .stp pair.1 pair.2) (r, mem) =
      ({ r with sp := r.sp - 16 * pairs.length },
        pushAll mem r.sp (pairs.map fun pair => (r.x pair.1, r.x pair.2))) := by
  induction pairs generalizing r mem with
  | nil => rfl
  | cons first rest ih =>
      change run pair _ ({ r with sp := r.sp - 16 }, _) = _
      rw [ih]
      simp only [List.length_cons, Prod.mk.injEq]
      refine ⟨?_, rfl⟩
      congr 1
      omega

end Code

end PiKernel.Trap
