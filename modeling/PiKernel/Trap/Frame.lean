import PiKernel.Trap.Machine

/-!
# Trap frames and contexts

`alltraps` saves the registers of a user process in a trap frame on the kernel stack of
the process, and `trapret` restores them.  `swtch` saves the registers that belong to
the caller of a function, and restores those of another stack.
-/

namespace PiKernel.Trap

/-! ## The code -/

/-- Up to the call of `trap`. -/
def alltraps : List Instr :=
  [.stp 29 30, .stp 27 28, .stp 25 26, .stp 23 24, .stp 21 22, .stp 19 20, .stp 17 18,
    .stp 15 16, .stp 13 14, .stp 11 12, .stp 9 10, .stp 7 8, .stp 5 6, .stp 3 4, .stp 1 2,
    .mrs 9 .sp_el0, .mrs 11 .spsr_el1, .mrs 10 .elr_el1,
    .stp 9 0, .stp 10 11,
    .mrs 12 .tpidr_el0, .stp 12 12, .strq 0,
    .movFromSp 0]

/-- Up to `eret`. -/
def trapret : List Instr :=
  [.ldrq 0, .ldp 12 12, .msr .tpidr_el0 12,
    .ldp 11 12, .msr .elr_el1 11, .msr .spsr_el1 12,
    .ldp 11 0, .msr .sp_el0 11,
    .ldp 1 2, .ldp 3 4, .ldp 5 6, .ldp 7 8, .ldp 9 10, .ldp 11 12, .ldp 13 14, .ldp 15 16,
    .ldp 17 18, .ldp 19 20, .ldp 21 22, .ldp 23 24, .ldp 25 26, .ldp 27 28, .ldp 29 30]

/-- Up to `br x30`. -/
def swtch : List Instr :=
  [.stp 29 30, .stp 27 28, .stp 25 26, .stp 23 24, .stp 21 22, .stp 19 20,
    .movFromSp 24, .str 24 0, .movToSp 1,
    .ldp 19 20, .ldp 21 22, .ldp 23 24, .ldp 25 26, .ldp 27 28, .ldp 29 30]

/-! ## `struct trapframe` -/

/-- `sizeof(struct trapframe)`. -/
def TRAPFRAME : Nat := 304

/-- The fields of `struct trapframe`, by their offsets. -/
structure Trapframe where
  q0 : UInt64 × UInt64
  tpidr : UInt64
  tpidr_copy : UInt64
  elr : UInt64
  spsr : UInt64
  sp : UInt64
  r : Fin 31 → UInt64

/-- The offset of the field of a register. -/
def offset (i : Fin 31) : Nat := 56 + 8 * i

/-- The trap frame at an address. -/
def Trapframe.load (mem : Mem) (tf : Nat) : Trapframe where
  q0 := (mem tf, mem (tf + 8))
  tpidr := mem (tf + 16)
  tpidr_copy := mem (tf + 24)
  elr := mem (tf + 32)
  spsr := mem (tf + 40)
  sp := mem (tf + 48)
  r i := mem (tf + offset i)

/-- The frame of a state of the registers. -/
def Trapframe.of (r : Regs) : Trapframe where
  q0 := r.q 0
  tpidr := r.sys .tpidr_el0
  tpidr_copy := r.sys .tpidr_el0
  elr := r.sys .elr_el1
  spsr := r.sys .spsr_el1
  sp := r.sys .sp_el0
  r := r.x

/-- The registers that `alltraps` pushes, in this order. -/
def trapPairs (r : Regs) : List (UInt64 × UInt64) :=
  [(r.x 29, r.x 30), (r.x 27, r.x 28), (r.x 25, r.x 26), (r.x 23, r.x 24), (r.x 21, r.x 22),
    (r.x 19, r.x 20), (r.x 17, r.x 18), (r.x 15, r.x 16), (r.x 13, r.x 14), (r.x 11, r.x 12),
    (r.x 9, r.x 10), (r.x 7, r.x 8), (r.x 5, r.x 6), (r.x 3, r.x 4), (r.x 1, r.x 2),
    (r.sys .sp_el0, r.x 0), (r.sys .elr_el1, r.sys .spsr_el1),
    (r.sys .tpidr_el0, r.sys .tpidr_el0), r.q 0]

/-- The registers of the first instructions. -/
def firstPairs : List (Fin 31 × Fin 31) :=
  [(29, 30), (27, 28), (25, 26), (23, 24), (21, 22), (19, 20), (17, 18), (15, 16), (13, 14),
    (11, 12), (9, 10), (7, 8), (5, 6), (3, 4), (1, 2)]

theorem run_alltraps (pair : Pair) (r : Regs) (mem : Mem) :
    (run pair alltraps (r, mem)).2 = pushAll mem r.sp (trapPairs r) ∧
      (run pair alltraps (r, mem)).1.sp = r.sp - TRAPFRAME ∧
      (run pair alltraps (r, mem)).1.sys = r.sys ∧ (run pair alltraps (r, mem)).1.q = r.q := by
  have code : alltraps =
      firstPairs.map (fun pair => .stp pair.1 pair.2) ++ alltraps.drop 15 := rfl
  have pairs : trapPairs r =
      firstPairs.map (fun pair => (r.x pair.1, r.x pair.2)) ++ (trapPairs r).drop 15 := rfl
  rw [code, run_append, run_stp, pairs, pushAll_append]
  generalize pushAll mem r.sp (firstPairs.map fun pair => (r.x pair.1, r.x pair.2)) = saved
  have length : firstPairs.length = 15 := rfl
  rw [List.length_map, length]
  refine ⟨?_, ?_, rfl, rfl⟩
  · simp [alltraps, run, Instr.exec, trapPairs, pushAll]
  · change r.sp - 16 * 15 - 16 - 16 - 16 - 16 = r.sp - 304
    omega

/-- The words of a trap frame. -/
def Trapframe.words (frame : Trapframe) : List UInt64 :=
  [frame.q0.1, frame.q0.2, frame.tpidr, frame.tpidr_copy, frame.elr, frame.spsr, frame.sp] ++
    List.ofFn frame.r

/-- The words at an address are those of a frame. -/
theorem Trapframe.load_of_words {mem : Mem} {tf : Nat} {frame : Trapframe}
    (words : Words mem tf frame.words) : Trapframe.load mem tf = frame := by
  have length : frame.words.length = 38 := by simp [Trapframe.words]
  have first : ∀ k (below : k < 7), mem (tf + 8 * k) = frame.words.get ⟨k, by omega⟩ :=
    fun k below => words k (by omega)
  have rest : ∀ i : Fin 31, mem (tf + offset i) = frame.r i := by
    intro i
    have word := words (7 + i) (by omega)
    have place : tf + 8 * (7 + i.val) = tf + offset i := by
      unfold offset
      omega
    rw [place] at word
    rw [word]
    unfold Trapframe.words
    rw [List.getElem_append_right (by simp)]
    simp only [List.length_cons, List.length_nil, List.getElem_ofFn]
    congr 1
    ext
    simp
  rcases frame with ⟨q0, tpidr, tpidr_copy, elr, spsr, sp, r⟩
  unfold Trapframe.load
  congr 1
  · exact Prod.ext (first 0 (by decide)) (first 1 (by decide))
  · exact first 2 (by decide)
  · exact first 3 (by decide)
  · exact first 4 (by decide)
  · exact first 5 (by decide)
  · exact first 6 (by decide)
  · funext i
    exact rest i

theorem alltraps_load (pair : Pair) (r : Regs) (mem : Mem) (room : TRAPFRAME ≤ r.sp) :
    Trapframe.load (run pair alltraps (r, mem)).2 (r.sp - TRAPFRAME) = Trapframe.of r := by
  have nothing : Words mem r.sp [] := fun k below => absurd below (Nat.not_lt_zero k)
  have words : Words (pushAll mem r.sp (trapPairs r)) (r.sp - TRAPFRAME)
      (pushed (trapPairs r) []) := nothing.pushAll room
  have same : pushed (trapPairs r) [] = (Trapframe.of r).words := by
    simp [pushed, trapPairs, Trapframe.words, Trapframe.of, List.ofFn_succ]
  rw [same] at words
  rw [(run_alltraps pair r mem).1]
  exact Trapframe.load_of_words words

/-- What `trapret` restores. -/
theorem run_trapret (pair : Pair) (r : Regs) (mem : Mem) :
    (run pair trapret (r, mem)).2 = mem ∧
      (run pair trapret (r, mem)).1.sp = r.sp + TRAPFRAME ∧
      (run pair trapret (r, mem)).1.x = (Trapframe.load mem r.sp).r ∧
      (run pair trapret (r, mem)).1.sys .sp_el0 = (Trapframe.load mem r.sp).sp ∧
      (run pair trapret (r, mem)).1.sys .elr_el1 = (Trapframe.load mem r.sp).elr ∧
      (run pair trapret (r, mem)).1.sys .spsr_el1 = (Trapframe.load mem r.sp).spsr ∧
      (run pair trapret (r, mem)).1.sys .tpidr_el0 =
        pair (Trapframe.load mem r.sp).tpidr (Trapframe.load mem r.sp).tpidr_copy ∧
      (run pair trapret (r, mem)).1.q = Function.update r.q 0 (Trapframe.load mem r.sp).q0 := by
  refine ⟨rfl, rfl, ?_, rfl, rfl, rfl, rfl, rfl⟩
  funext i
  fin_cases i <;> rfl

/-! ## `struct context` -/

/-- `sizeof(struct context)`. -/
def CONTEXT : Nat := 96

/-- Register 19 + `i`. -/
def calleeReg (i : Fin 12) : Fin 31 := ⟨19 + i, by omega⟩

/-- The registers of `struct context`: `x19` to `x30`. -/
def callee (r : Regs) (i : Fin 12) : UInt64 := r.x (calleeReg i)

def contextPairs (r : Regs) : List (UInt64 × UInt64) :=
  [(r.x 29, r.x 30), (r.x 27, r.x 28), (r.x 25, r.x 26), (r.x 23, r.x 24), (r.x 21, r.x 22),
    (r.x 19, r.x 20)]

/-- `swtch(old, new)` with its arguments in the first two registers. -/
theorem run_swtch (pair : Pair) (r : Regs) (mem : Mem) :
    (run pair swtch (r, mem)).2 =
        Function.update (pushAll mem r.sp (contextPairs r)) (r.x 0).toNat
          (UInt64.ofNat (r.sp - CONTEXT)) ∧
      (run pair swtch (r, mem)).1.sp = (r.x 1).toNat + CONTEXT ∧
      (run pair swtch (r, mem)).1.sys = r.sys ∧ (run pair swtch (r, mem)).1.q = r.q ∧
      ∀ i, callee (run pair swtch (r, mem)).1 i =
        (run pair swtch (r, mem)).2 ((r.x 1).toNat + 8 * i) := by
  refine ⟨?_, rfl, rfl, rfl, ?_⟩
  · simp [run, swtch, Instr.exec, contextPairs, pushAll, Nat.sub_sub, CONTEXT]
  · intro i
    fin_cases i <;> rfl

/-- The words that `swtch` leaves on the old stack. -/
theorem swtch_words (r : Regs) (mem : Mem) (room : CONTEXT ≤ r.sp) :
    Words (pushAll mem r.sp (contextPairs r)) (r.sp - CONTEXT) (List.ofFn (callee r)) := by
  have nothing : Words mem r.sp [] := fun k below => absurd below (Nat.not_lt_zero k)
  have words : Words (pushAll mem r.sp (contextPairs r)) (r.sp - CONTEXT)
      (pushed (contextPairs r) []) := nothing.pushAll room
  have same : pushed (contextPairs r) [] = List.ofFn (callee r) := by
    simp [pushed, contextPairs, callee, calleeReg, List.ofFn_succ]
  rwa [same] at words

end PiKernel.Trap
