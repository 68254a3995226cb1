import PiKernel.Vm.Replace

/-!
# The initial stack, as a process reads it

A process starts with `argc`, the argument vector, the environment and the auxiliary
vector on its stack.  `Decodes` is the layout at the end of `exec.c`, read through the
page tables.
-/

namespace PiKernel.Vm

open PiKernel.Bytes
open PiKernel.Conc

/-! ## Reading user memory -/

/-- The page at an address, if the process may access it. -/
def userPage (mem : Nat → Page) (pgdir va : Nat) : Option Nat :=
  if va < 2 ^ 48 then
    ((links mem).follow pgdir (walkPath va 3 0)).bind fun table =>
      let pte := word (mem table) (PTX 3 va)
      if present pte && user pte then some (pageOf pte) else none
  else
    none

def userByte (mem : Nat → Page) (pgdir va : Nat) : Option UInt8 :=
  (userPage mem pgdir va).map fun x => byteAt (mem x) (va % PGSIZE)

def userBytes (mem : Nat → Page) (pgdir : Nat) : Nat → Nat → Option (List UInt8)
  | _, 0 => some []
  | va, n + 1 =>
      (userByte mem pgdir va).bind fun byte =>
        (userBytes mem pgdir (va + 1) n).map fun bytes => byte :: bytes

def userWord (mem : Nat → Page) (pgdir va : Nat) : Option Nat :=
  (userBytes mem pgdir va 8).map fun bytes => numberAt bytes 0 8

/-! ## The layout -/

/-- The pairs of an auxiliary vector, up to `AT_NULL`. -/
inductive Auxv (mem : Nat → Page) (pgdir : Nat) : Nat → List (Nat × Nat) → Prop where
  | nil {va : Nat} (type : userWord mem pgdir va = some AT_NULL) : Auxv mem pgdir va []
  | cons {va type value : Nat} {auxv : List (Nat × Nat)}
      (typed : userWord mem pgdir va = some type) (more : type ≠ AT_NULL)
      (valued : userWord mem pgdir (va + 8) = some value)
      (rest : Auxv mem pgdir (va + 16) auxv) : Auxv mem pgdir va ((type, value) :: auxv)

/-- Two pieces of memory, each with its address and its length. -/
def Apart (piece piece' : Nat × Nat) : Prop :=
  piece.1 + piece.2 ≤ piece'.1 ∨ piece'.1 + piece'.2 ≤ piece.1

/-- The words from `sp` on, and the strings. -/
def pieces (sp : Nat) (addresses : List Nat) (argv : List (List UInt8))
    (auxv : List (Nat × Nat)) : List (Nat × Nat) :=
  (sp, 8 * (argv.length + 3 + 2 * (auxv.length + 1))) ::
    (addresses.zip argv).map fun arg => (arg.1, arg.2.length + 1)

/-- The stack at `sp` with the argument strings at some addresses. -/
structure Layout (mem : Nat → Page) (pgdir sp : Nat) (argv : List (List UInt8))
    (auxv : List (Nat × Nat)) (addresses : List Nat) : Prop where
  argc : userWord mem pgdir sp = some argv.length
  count : addresses.length = argv.length
  pointers : ∀ i address, addresses[i]? = some address →
    userWord mem pgdir (sp + 8 * (i + 1)) = some address
  strings : ∀ address arg, (address, arg) ∈ addresses.zip argv →
    userBytes mem pgdir address (arg.length + 1) = some (arg ++ [0])
  null : userWord mem pgdir (sp + 8 * (argv.length + 1)) = some 0
  envp : userWord mem pgdir (sp + 8 * (argv.length + 2)) = some 0
  vector : Auxv mem pgdir (sp + 8 * (argv.length + 3)) auxv
  apart : (pieces sp addresses argv auxv).Pairwise Apart

/-- The stack decodes to the arguments and the auxiliary vector. -/
def Decodes (mem : Nat → Page) (pgdir sp : Nat) (argv : List (List UInt8))
    (auxv : List (Nat × Nat)) : Prop :=
  ∃ addresses, Layout mem pgdir sp argv auxv addresses

/-- A stack has one auxiliary vector. -/
theorem Auxv.unique {mem : Nat → Page} {pgdir va : Nat} {auxv auxv' : List (Nat × Nat)}
    (first : Auxv mem pgdir va auxv) (second : Auxv mem pgdir va auxv') : auxv' = auxv := by
  induction first generalizing auxv' with
  | nil type =>
      cases second with
      | nil _ => rfl
      | cons typed more _ _ =>
          rw [type] at typed
          cases typed
          exact absurd rfl more
  | cons typed more valued _ ih =>
      cases second with
      | nil type =>
          rw [type] at typed
          cases typed
          exact absurd rfl more
      | cons typed' _ valued' rest =>
          rw [typed] at typed'
          rw [valued] at valued'
          cases typed'
          cases valued'
          rw [ih rest]

theorem Decodes.unique {mem : Nat → Page} {pgdir sp : Nat} {argv : List (List UInt8)}
    {auxv auxv' : List (Nat × Nat)} (first : Decodes mem pgdir sp argv auxv)
    (second : Decodes mem pgdir sp argv auxv') : auxv' = auxv := by
  rcases first with ⟨_, layout⟩
  rcases second with ⟨_, layout'⟩
  exact layout.vector.unique layout'.vector

/-! ## Words and strings in a page -/

variable {page : Page} {base sp off n : Nat} {addresses words : List Nat}
  {argv : List (List UInt8)}

theorem numberAt_wordBytes {w : Nat} (fits : w < 2 ^ 64) :
    numberAt (wordBytes [w]) 0 8 = w := by
  simp [numberAt, wordBytes, List.range_succ]
  omega

/-- A word of several. -/
theorem slice_word (written : slice page off (8 * words.length) = wordBytes words) {i w : Nat}
    (here : words[i]? = some w) : slice page (off + 8 * i) 8 = wordBytes [w] := by
  induction words generalizing off i with
  | nil => cases here
  | cons first words ih =>
      have split : 8 * (first :: words).length = 8 + 8 * words.length := by
        rw [List.length_cons]
        omega
      have parts : wordBytes (first :: words) = wordBytes [first] ++ wordBytes words := by
        rw [← wordBytes_append]
        rfl
      rw [split, slice_append, parts] at written
      rcases List.append_inj written (by simp [slice, wordBytes_length]) with ⟨head, tail⟩
      cases i with
      | zero =>
          cases here
          exact head
      | succ i =>
          have next := ih tail here
          rw [← next]
          congr 1
          omega

theorem slice_succ : slice page off (n + 1) = byteAt page off :: slice page (off + 1) n := by
  rw [Nat.add_comm n 1, slice_append]
  rfl

theorem Strings.copied (strings : Strings page base addresses argv sp) {address : Nat}
    {arg : List UInt8} (member : (address, arg) ∈ addresses.zip argv) :
    sp ≤ address ∧ address + (arg.length + 1) ≤ base + PGSIZE ∧
      slice page (address - base) (arg.length + 1) = arg ++ [0] := by
  induction strings with
  | nil => cases member
  | snoc strings inside below copied ih =>
      rw [List.zip_append strings.length_eq] at member
      rcases List.mem_append.mp member with old | new
      · rcases ih old with ⟨low, rest⟩
        exact ⟨by omega, rest⟩
      · rw [List.zip_cons_cons, List.zip_nil_left, List.mem_singleton] at new
        cases new
        exact ⟨le_refl _, below.trans strings.le_top, copied⟩

theorem Strings.lt_top (strings : Strings page base addresses argv sp) :
    ∀ address, address ∈ addresses → address < base + PGSIZE := by
  induction strings with
  | nil =>
      intro address member
      cases member
  | snoc strings inside below copied ih =>
      intro address member
      rcases List.mem_append.mp member with old | new
      · exact ih address old
      · rw [List.mem_singleton.mp new]
        have top := strings.le_top
        omega

theorem Strings.apart (strings : Strings page base addresses argv sp) :
    ((addresses.zip argv).map fun arg => (arg.1, arg.2.length + 1)).Pairwise Apart := by
  induction strings with
  | nil => exact .nil
  | snoc strings inside below copied ih =>
      rw [List.zip_append strings.length_eq, List.map_append, List.pairwise_append]
      refine ⟨ih, List.pairwise_singleton _ _, ?_⟩
      intro piece old piece' new
      rcases List.mem_map.mp old with ⟨⟨address, arg⟩, member, rfl⟩
      rw [List.zip_cons_cons, List.zip_nil_left, List.map_singleton, List.mem_singleton] at new
      subst new
      have low := (strings.copied member).1
      right
      exact below.trans low

/-! ## The stack page of a process -/

section Read

variable {kernelEnd : Nat} {Pid : Type} {p : Pid} {s : Machine Pid}
  {roots : Set (Nat × Nat)} {pgdir g y va : Nat}

/-- The process can access its stack page. -/
theorem Stack.userPage (stack : Stack (s.view kernelEnd p) roots pgdir g y page)
    (here : va / PGSIZE = g + 1) : userPage s.mem pgdir va = some y := by
  have small := stack.small
  have low : va < 2 ^ 30 := by
    simp only [PGSIZE] at here
    omega
  have four : (pagePath (g + 1)).length = 4 := by simp [pagePath, tablePath]
  rcases stack.span.some_table (by omega : g + 1 < g + 2) with ⟨t, table⟩
  rcases stack.span.entry stack.keeps stack.tree table with ⟨entries, held, entry⟩
  rw [if_pos (by omega)] at entry
  rcases entry with ⟨y', linked, found, access⟩
  rw [stack.found] at found
  cases found
  rw [Function.update_of_ne (Nat.succ_ne_self g)] at access
  rcases children_eq_some linked with ⟨present, leads⟩
  rw [Vm.userPage, if_pos (by omega), walkPath_va low, here,
    Machine.follow_view stack.keeps stack.tree (by simp [tablePath]), table, Option.bind_some,
    PTX_va, here, (Machine.view_page_eq_some held).2.2]
  simp [present, access, leads]

theorem Stack.userBytes (stack : Stack (s.view kernelEnd p) roots pgdir g y page)
    (low : (g + 1) * PGSIZE ≤ va) (high : va + n ≤ (g + 1) * PGSIZE + PGSIZE) :
    userBytes s.mem pgdir va n = some (slice page (va - (g + 1) * PGSIZE) n) := by
  induction n generalizing va with
  | zero => rfl
  | succ n ih =>
      have here : va / PGSIZE = g + 1 := by
        simp only [PGSIZE] at low high ⊢
        omega
      have within : va % PGSIZE = va - (g + 1) * PGSIZE := by
        simp only [PGSIZE] at low high ⊢
        omega
      have next : va + 1 - (g + 1) * PGSIZE = va - (g + 1) * PGSIZE + 1 := by omega
      rw [Vm.userBytes, userByte, stack.userPage here, Option.map_some, Option.bind_some,
        ih (by omega) (by omega), Option.map_some, next, slice_succ, within,
        (Machine.view_page_eq_some stack.here).2.2]

theorem Stack.userWord {w i : Nat} (stack : Stack (s.view kernelEnd p) roots pgdir g y page)
    (inside : (g + 1) * PGSIZE ≤ sp)
    (pile : Pile page ((g + 1) * PGSIZE) words addresses argv sp)
    (here : words[i]? = some w) (fits : w < 2 ^ 64) :
    userWord s.mem pgdir (sp + 8 * i) = some w := by
  rcases pile.strings with ⟨bottom, above, strings⟩
  have top := strings.le_top
  rcases List.getElem?_eq_some_iff.mp here with ⟨below, _⟩
  have off : sp + 8 * i - (g + 1) * PGSIZE = sp - (g + 1) * PGSIZE + 8 * i := by omega
  rw [Vm.userWord, stack.userBytes (by omega) (by omega), off, Option.map_some,
    slice_word pile.written here, numberAt_wordBytes fits]

/-- The stack that `execve` builds has an empty auxiliary vector. -/
theorem Loaded.decodes {sz : Nat} (loaded : Loaded (s.view kernelEnd p) roots pgdir argv sz sp) :
    Decodes s.mem pgdir sp argv [] := by
  rcases loaded.stack with ⟨g, y, page, addresses, _, stack, inside, pile⟩
  rcases pile.strings with ⟨bottom, above, strings⟩
  have small := stack.small
  have count := strings.length_eq
  have list : vectors addresses =
      addresses.length :: (addresses ++ [0, 0, 0, AT_PAGESZ, PGSIZE, AT_NULL]) := by
    simp [vectors]
  have size : (vectors addresses).length = addresses.length + 7 := by simp [list]
  have bounded : ∀ address, address ∈ addresses → address < 2 ^ 64 := by
    intro address member
    have top := strings.lt_top address member
    simp only [PGSIZE] at top
    omega
  have few : addresses.length < 2 ^ 64 := by
    have top := strings.le_top
    simp only [PGSIZE] at top
    omega
  have zero : ∀ k, k < 3 → (vectors addresses)[addresses.length + (k + 1)]? = some 0 := by
    intro k low
    rw [list, ← Nat.add_assoc, List.getElem?_cons_succ,
      List.getElem?_append_right (Nat.le_add_right _ _), Nat.add_sub_cancel_left]
    rcases k with _ | _ | _ | k
    · rfl
    · rfl
    · rfl
    · omega
  refine ⟨addresses, ?_, count, ?_, ?_, ?_, ?_, ?_, ?_⟩
  · rw [← count]
    exact stack.userWord (i := 0) inside pile (by rw [list]; rfl) few
  · intro i address here
    apply stack.userWord inside pile
    · rw [list, List.getElem?_cons_succ]
      rcases List.getElem?_eq_some_iff.mp here with ⟨below, _⟩
      rw [List.getElem?_append_left below, here]
    · exact bounded address (List.mem_of_getElem? here)
  · intro address arg member
    rcases strings.copied member with ⟨low, high, copied⟩
    rw [stack.userBytes (by omega) high, copied]
  · rw [← count]
    exact stack.userWord inside pile (zero 0 (by decide)) (by decide)
  · rw [← count]
    exact stack.userWord inside pile (zero 1 (by decide)) (by decide)
  · rw [← count]
    exact .nil (stack.userWord inside pile (zero 2 (by decide)) (by decide))
  · refine List.pairwise_cons.mpr ⟨?_, strings.apart⟩
    intro piece member
    rcases List.mem_map.mp member with ⟨⟨address, arg⟩, pushed, rfl⟩
    have low := (strings.copied pushed).1
    left
    simp only [List.length_nil]
    omega

end Read

/-! ## The result of `execve` -/

section Execve

variable {kernelEnd : Nat} {Pid : Type} [DecidableEq Pid] {p : Pid} {s s' : Machine Pid}
  {file : Option Fs.File} {argc : Nat}

theorem execve_decodes (ready : s.Ready kernelEnd p)
    (args : ∀ arg, arg ∈ argv → arg.length + 1 ≤ (s.proc p).sz)
    (done : machine.Completes p (execve kernelEnd p file argv) s (some argc) s') :
    Decodes s'.mem (s'.proc p).pgdir (s'.proc p).tf.sp argv [] := by
  have executed := ((execve_ends ready args).of_completes done).2
  exact (executed.replaced argc rfl).2.decodes

/-- After no call is the page size the auxiliary vector of the process. -/
theorem execve_not_decodes (ready : s.Ready kernelEnd p)
    (args : ∀ arg, arg ∈ argv → arg.length + 1 ≤ (s.proc p).sz)
    (done : machine.Completes p (execve kernelEnd p file argv) s (some argc) s') :
    ¬ Decodes s'.mem (s'.proc p).pgdir (s'.proc p).tf.sp argv [(AT_PAGESZ, PGSIZE)] := by
  intro decoded
  cases (execve_decodes ready args done).unique decoded

end Execve

/-! ## An executable without segments -/

theorem noArguments_completes :
    ∃ s', machine.Completes () (execve 1 () (some noSegments) []) caller (some 0) s' :=
  noSegments_completes (by simp) (by decide +kernel)

theorem execve_not_decodes_noSegments :
    ∃ s', machine.Completes () (execve 1 () (some noSegments) [sh]) caller (some 1) s' ∧
      ¬ Decodes s'.mem (s'.proc ()).pgdir (s'.proc ()).tf.sp [sh] [(AT_PAGESZ, PGSIZE)] := by
  rcases sh_completes with ⟨s', done⟩
  exact ⟨s', done, execve_not_decodes caller_ready sh_inside done⟩

/-- The words 0, `AT_PAGESZ`, `PGSIZE`, `AT_NULL` begin with an entry of type `AT_NULL`. -/
theorem noSegments_not_decodes :
    ∃ s', machine.Completes () (execve 1 () (some noSegments) []) caller (some 0) s' ∧
      ¬ Decodes s'.mem (s'.proc ()).pgdir (s'.proc ()).tf.sp [] [(AT_PAGESZ, PGSIZE)] := by
  rcases noArguments_completes with ⟨s', done⟩
  refine ⟨s', done, ?_⟩
  intro decoded
  cases (execve_decodes caller_ready (by simp) done).unique decoded

end PiKernel.Vm
