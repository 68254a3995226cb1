import PiKernel.Vm.Loading

/-!
# The user stack of an image

`execve` fills one page from its end downwards: the argument strings, the words of
the auxiliary vector, the environment and the argument vector, and `argc`.  Below the
page is one which the process cannot access, where `copyout` stops.
-/

namespace PiKernel.Vm

open PiKernel.Bytes
open PiKernel.Conc
open PiKernel.Conc.Prog (perform)

variable {kernelEnd : Nat} {Pid : Type} {R : Rules kernelEnd Pid}
  {h h' : Heap kernelEnd} {roots : Set (Nat × Nat)} {pgdir g y sp va base top : Nat}
  {page page' : Page}

/-! ## The stack page -/

/-- The page after `g` is the stack page. -/
structure Stack (h : Heap kernelEnd) (roots : Set (Nat × Nat)) (pgdir g y : Nat)
    (page : Page) : Prop where
  keeps : h.Keeps roots
  tree : (pgdir, 4) ∈ roots
  small : g + 2 ≤ 2 ^ 16
  span : Span h pgdir (g + 2) (Function.update (fun _ => true) g false)
  found : h.links.follow pgdir (pagePath (g + 1)) = some y
  here : h.page y = some page

theorem Stack.setTf {tf : Trapframe} (stack : Stack h roots pgdir g y page) :
    Stack { h with tf := tf } roots pgdir g y page :=
  ⟨stack.keeps, stack.tree, stack.small, ⟨stack.span.tables, stack.span.entries⟩, stack.found,
    stack.here⟩

/-- Only the page `y` may be different. -/
def Elsewhere (h h' : Heap kernelEnd) (y : Nat) : Prop :=
  ∀ z, z ≠ y → h'.page z = h.page z

theorem Elsewhere.refl : Elsewhere h h y :=
  fun _ _ => rfl

theorem Elsewhere.trans {h'' : Heap kernelEnd} (first : Elsewhere h h' y)
    (second : Elsewhere h' h'' y) : Elsewhere h h'' y :=
  fun z other => (second z other).trans (first z other)

/-- The other pages of the address space stay where the page `y` is different. -/
theorem Elsewhere.agree {n : Nat} (elsewhere : Elsewhere h h' y) (keeps : h.Keeps roots)
    (tree : (pgdir, 4) ∈ roots) (found : h.links.follow pgdir (leafPath n) = some y)
    (low : n < PAGES) {m : Nat} (low' : m < PAGES) (other : m ≠ n) : Agree h h' pgdir m := by
  have apart : ∀ (path : List Nat) z, path.length ≤ 4 → path ≠ leafPath n →
      h.links.follow pgdir path = some z → h'.page z = h.page z := by
    intro path z short differs found'
    apply elsewhere
    rintro rfl
    exact differs (Forest.once keeps pgdir 4 tree pgdir 4 tree path (leafPath n) z short
      leafPath_length.le found' found).2.2
  apply Agree.of_tables
  · intro before z short found'
    have same := apart before z short.le (fun same => by simp [same, leafPath_length] at short)
      found'
    funext i
    rw [Heap.links, Heap.links, same]
  · intro z found'
    exact apart (leafPath m) z leafPath_length.le
      (fun same => other (leafPath_injective low' low same)) found'

/-- Bytes below the stack pointer are written to the stack page, or refused. -/
theorem copyout_stack {post : Bool → Heap kernelEnd → Prop} {buf : List UInt8}
    (stack : Stack h roots pgdir g y page) (more : R.live ⊆ roots) (some : buf ≠ [])
    (low : g * PGSIZE < va + buf.length) (high : va + buf.length ≤ (g + 2) * PGSIZE)
    (refused : ∀ h', va < (g + 1) * PGSIZE → h'.Keeps roots → h'.tf = h.tf → post false h')
    (done : ∀ h', (g + 1) * PGSIZE ≤ va →
      Stack h' roots pgdir g y (splice page (va - (g + 1) * PGSIZE) buf) →
      Elsewhere h h' y → h'.tf = h.tf → post true h') :
    R.wp (copyout pgdir va buf) h post := by
  by_cases below : va < (g + 1) * PGSIZE
  · apply R.untouched copyout_only
    apply copyout_refused stack.keeps more stack.tree stack.span stack.small
      (by omega : g < g + 2) (Function.update_self _ _ _) below low some
    intro h' keeps' _ tf
    exact refused h' below keeps' tf
  · have split : va = (g + 1) * PGSIZE + (va - (g + 1) * PGSIZE) := by omega
    have visible : Function.update (fun _ => true) g false (g + 1) = true :=
      Function.update_of_ne (Nat.succ_ne_self g) _ _
    have fits : va - (g + 1) * PGSIZE + buf.length ≤ PGSIZE := by
      simp only [PGSIZE] at high below ⊢
      omega
    rw [split]
    apply copyout_page stack.keeps more stack.tree stack.span stack.small
      (by omega : g + 1 < g + 2) visible stack.found stack.here some fits
    intro keeps' span'
    have four : (pagePath (g + 1)).length = 4 := by simp [pagePath, tablePath]
    refine done _ (by omega) ?_ ?_ ?_
    · refine ⟨keeps', stack.tree, stack.small, span', ?_, Heap.put_page_same⟩
      exact stack.keeps.follow_put stack.tree four.le stack.found
    · exact fun _ other => Heap.put_page_other other
    · rfl

/-! ## Argument strings -/

/-- Only the bit for 2 is cleared. -/
theorem align_eq {sp : Nat} (fits : sp < 2 ^ 64) : align sp = sp - 2 * (sp / 2 % 2) := by
  have split : sp - 2 * (sp / 2 % 2) = 2 ^ 2 * (sp / 2 ^ 2) + sp % 2 := by omega
  have low : sp % 2 < 2 ^ 2 := by omega
  rw [split]
  apply Nat.eq_of_testBit_eq
  intro i
  rw [align, Nat.testBit_and, Nat.testBit_two_pow_sub_succ (by decide : 2 < 2 ^ 64),
    Nat.testBit_two_pow_mul_add _ low]
  rcases i with _ | _ | i
  · simp [Nat.testBit_zero]
  · have here : Nat.testBit 2 1 = true := by decide
    have clear : (sp % 2).testBit 1 = false := Nat.testBit_lt_two_pow (by omega)
    simp [here, clear]
  · have other : Nat.testBit 2 (i + 2) = false := by
      apply Nat.testBit_lt_two_pow
      calc 2 < 2 ^ 2 := by decide
        _ ≤ 2 ^ (i + 2) := Nat.pow_le_pow_right (by decide) (by omega)
    rw [other, if_neg (by omega), Nat.testBit_div_two_pow, Nat.sub_add_cancel (by omega)]
    by_cases inside : i + 2 < 64
    · simp [inside]
    · have high : sp.testBit (i + 2) = false := by
        apply Nat.testBit_lt_two_pow
        exact lt_of_lt_of_le fits (Nat.pow_le_pow_right (by decide) (by omega))
      simp [high]

/-- What a string takes, and the bytes that are skipped below the `used` ones. -/
def used (before : Nat) (arg : List UInt8) : Nat :=
  let after := before + (arg.length + 1)
  if after % 4 = 1 ∨ after % 4 = 2 then after + 2 else after

/-- The bytes which the argument strings take from the stack. -/
def stringBytes (argv : List (List UInt8)) : Nat :=
  argv.foldl used 0

theorem le_used {before : Nat} {arg : List UInt8} : before ≤ used before arg := by
  simp only [used]
  split <;> omega

theorem le_foldl_used {before : Nat} {argv : List (List UInt8)} :
    before ≤ argv.foldl used before := by
  induction argv generalizing before with
  | nil => exact le_rfl
  | cons arg argv ih => exact le_used.trans ih

/-- The strings are pushed below the `before` bytes that are taken. -/
theorem below_used {before : Nat} {arg : List UInt8} (fits : arg.length + 1 ≤ sp)
    (small : sp < 2 ^ 64) (start : (sp + before) % 4 = 0) :
    below sp arg + used before arg = sp + before := by
  rw [below, align_eq (by omega)]
  simp only [used]
  split <;> omega

/--
The strings that were pushed, with their addresses.  The page is mapped at `base`, and
`sp` is the address of the last one.
-/
inductive Strings (page : Page) (base : Nat) : List Nat → List (List UInt8) → Nat → Prop where
  | nil : Strings page base [] [] (base + PGSIZE)
  | snoc {addresses : List Nat} {argv : List (List UInt8)} {sp address : Nat}
      {arg : List UInt8} (strings : Strings page base addresses argv sp)
      (inside : base ≤ address) (below : address + (arg.length + 1) ≤ sp)
      (copied : slice page (address - base) (arg.length + 1) = arg ++ [0]) :
      Strings page base (addresses ++ [address]) (argv ++ [arg]) address

namespace Strings

variable {addresses : List Nat} {argv : List (List UInt8)}

theorem length_eq (strings : Strings page base addresses argv sp) :
    addresses.length = argv.length := by
  induction strings with
  | nil => rfl
  | snoc _ _ _ _ ih => rw [List.length_append, List.length_append, ih]; rfl

theorem le_top (strings : Strings page base addresses argv sp) : sp ≤ base + PGSIZE := by
  induction strings with
  | nil => rfl
  | snoc _ _ below _ ih => omega

theorem base_le (strings : Strings page base addresses argv sp) : base ≤ sp := by
  cases strings with
  | nil => omega
  | snoc _ inside _ _ => exact inside

/-- What lies below the strings does not matter to them. -/
theorem congr (strings : Strings page base addresses argv sp)
    (agree : ∀ index, sp ≤ base + index → byteAt page' index = byteAt page index) :
    Strings page' base addresses argv sp := by
  induction strings with
  | nil => exact .nil
  | snoc strings inside below copied ih =>
      refine .snoc (ih ?_) inside below ?_
      · intro index high
        exact agree index (by omega)
      · rw [← copied]
        apply slice_congr
        intro index low _
        exact agree index (by omega)

/-- A string is written below the others. -/
theorem push {arg : List UInt8} {address : Nat} (strings : Strings page base addresses argv sp)
    (inside : base ≤ address) (below : address + (arg.length + 1) ≤ sp) :
    Strings (splice page (address - base) (arg ++ [0])) base (addresses ++ [address])
      (argv ++ [arg]) address := by
  have high := strings.le_top
  have size : (arg ++ [0]).length = arg.length + 1 := by simp
  refine .snoc (strings.congr ?_) inside below ?_
  · intro index above
    apply byteAt_splice_outside
    omega
  · rw [← size]
    apply slice_splice_same
    omega

end Strings

theorem pushArguments_stack {post : Option (Nat × List Nat) → Heap kernelEnd → Prop}
    {pushed argv : List (List UInt8)} {ustack : List Nat} {before : Nat}
    (stack : Stack h roots pgdir g y page) (more : R.live ⊆ roots)
    (strings : Strings page ((g + 1) * PGSIZE) ustack pushed sp)
    (start : sp + before = (g + 2) * PGSIZE)
    (short : ∀ arg, arg ∈ argv → arg.length + 1 ≤ UADDR_SZ)
    (panics : ¬ ArgumentsHarmless ((g + 1) * PGSIZE) argv ustack.length sp →
      ∀ message, R.mayPanic message)
    (fail : ∀ h', h'.Keeps roots →
      ArgumentsHarmless ((g + 1) * PGSIZE) argv ustack.length sp →
      h'.tf = h.tf →
      (ustack.length + argv.length ≤ MAXARG → PGSIZE < argv.foldl used before) → post none h')
    (done : ∀ h' page' addresses sp', Stack h' roots pgdir g y page' →
      Strings page' ((g + 1) * PGSIZE) addresses (pushed ++ argv) sp' →
      ArgumentsHarmless ((g + 1) * PGSIZE) argv ustack.length sp →
      addresses.length ≤ max ustack.length MAXARG →
      sp' + argv.foldl used before = (g + 2) * PGSIZE → h'.tf = h.tf → Elsewhere h h' y →
      post (some (sp', addresses)) h') :
    R.wp (pushArguments pgdir argv ustack sp) h post := by
  induction argv generalizing h page pushed ustack sp before with
  | nil =>
      rw [List.append_nil] at done
      exact R.ret (done h page ustack sp stack strings trivial (le_max_left _ _) start rfl .refl)
  | cons arg argv ih =>
      rw [pushArguments]
      by_cases many : ustack.length ≥ MAXARG
      · rw [if_pos many]
        refine R.ret (fail h stack.keeps (fun few => absurd many (by omega)) rfl fun few => ?_)
        rw [List.length_cons] at few
        omega
      · rw [if_neg many]
        simp only [ArgumentsHarmless] at panics fail done
        have low := strings.base_le
        have high := strings.le_top
        have bound := short arg (List.mem_cons_self ..)
        have small := stack.small
        apply R.bind
        by_cases fits : arg.length + 1 ≤ sp
        · have exact : sub64 sp (arg.length + 1) = sp - (arg.length + 1) := by
            simp only [sub64, PGSIZE] at high ⊢
            omega
          have aligned : below sp arg = sp - (arg.length + 1) -
              2 * ((sp - (arg.length + 1)) / 2 % 2) := by
            apply align_eq
            simp only [PGSIZE] at high
            omega
          rw [exact]
          change R.wp (copyout pgdir (below sp arg) (arg ++ [0])) h _
          have size : (arg ++ [0]).length = arg.length + 1 := by simp
          have start' : below sp arg + used before arg = (g + 2) * PGSIZE := by
            simp only [PGSIZE] at high start ⊢
            rw [below_used fits (by omega) (by omega)]
            exact start
          apply copyout_stack stack more (by simp)
          · rw [size]
            simp only [PGSIZE] at low ⊢
            omega
          · rw [size]
            simp only [PGSIZE] at high ⊢
            omega
          · intro h' outside keeps' tf
            refine R.ret (fail h' keeps' (fun _ => ⟨fits, fun inside => absurd outside (by omega)⟩)
              tf fun _ => ?_)
            have more : used before arg ≤ argv.foldl used (used before arg) := le_foldl_used
            simp only [PGSIZE] at start' outside
            rw [List.foldl_cons, PGSIZE]
            omega
          · intro h' inside stack' elsewhere tf
            have harmless : ArgumentsHarmless ((g + 1) * PGSIZE) argv (ustack.length + 1)
                (below sp arg) →
                (ustack.length < MAXARG → arg.length + 1 ≤ sp ∧
                  ((g + 1) * PGSIZE ≤ below sp arg →
                    ArgumentsHarmless ((g + 1) * PGSIZE) argv (ustack.length + 1)
                      (below sp arg))) :=
              fun rest _ => ⟨fits, fun _ => rest⟩
            have longer : (ustack ++ [below sp arg]).length = ustack.length + 1 := by simp
            have next : Strings (splice page (below sp arg - (g + 1) * PGSIZE) (arg ++ [0]))
                ((g + 1) * PGSIZE) (ustack ++ [below sp arg]) (pushed ++ [arg])
                (below sp arg) :=
              strings.push inside (by omega)
            apply ih stack' next start'
              fun arg' member => short arg' (List.mem_cons_of_mem _ member)
            · rw [longer]
              exact fun wrong => panics fun right => wrong ((right (by omega)).2 inside)
            · rw [longer]
              intro h'' keeps'' rest tf' exceeds
              refine fail h'' keeps'' (harmless rest) (tf'.trans tf) fun few => exceeds ?_
              rw [List.length_cons] at few
              omega
            · rw [longer]
              intro h'' page'' addresses sp' stack'' strings'' rest few place tf' elsewhere'
              rw [List.append_assoc] at strings''
              exact done h'' page'' addresses sp' stack'' strings'' (harmless rest) (by omega)
                place (tf'.trans tf) (elsewhere.trans elsewhere')
        · have wrapped : sub64 sp (arg.length + 1) = 2 ^ 64 + sp - (arg.length + 1) := by
            simp only [sub64, UADDR_SZ] at bound ⊢
            omega
          have aligned : align (2 ^ 64 + sp - (arg.length + 1)) = _ := align_eq (by omega)
          simp only [UADDR_SZ, PGSIZE] at bound low
          rw [wrapped]
          apply copyout_wrapped stack.keeps stack.tree stack.span (by omega) (by omega) (by simp)
          exact panics fun right => fits (right (by omega)).1

/-! ## Vectors -/

theorem wordBytes_length (words : List Nat) : (wordBytes words).length = 8 * words.length := by
  induction words with
  | nil => rfl
  | cons w words ih =>
      rw [wordBytes, List.flatMap_cons, List.length_append, List.length_cons]
      rw [wordBytes] at ih
      rw [ih, List.length_map, List.length_range]
      omega

theorem wordBytes_append (words words' : List Nat) :
    wordBytes (words ++ words') = wordBytes words ++ wordBytes words' :=
  List.flatMap_append

/-- The words from `sp` on, and the strings above them. -/
structure Pile (page : Page) (base : Nat) (words addresses : List Nat)
    (argv : List (List UInt8)) (sp : Nat) : Prop where
  written : slice page (sp - base) (8 * words.length) = wordBytes words
  strings : ∃ bottom, sp + 8 * words.length ≤ bottom ∧
    Strings page base addresses argv bottom

section Vectors

variable {words words' addresses : List Nat} {argv : List (List UInt8)}

/-- Words are written below the others. -/
theorem Pile.push (pile : Pile page base words addresses argv sp) (inside : base ≤ va)
    (below : va + 8 * words'.length = sp) :
    Pile (splice page (va - base) (wordBytes words')) base (words' ++ words) addresses argv
      va := by
  rcases pile.strings with ⟨bottom, above, strings⟩
  have high := strings.le_top
  have size := wordBytes_length words'
  have total : (words' ++ words).length = words'.length + words.length := List.length_append
  constructor
  · have next : va - base + 8 * words'.length = sp - base := by omega
    have whole : slice (splice page (va - base) (wordBytes words')) (va - base)
        (8 * words'.length) = wordBytes words' := by
      rw [← size]
      apply slice_splice_same
      omega
    rw [total, Nat.mul_add, slice_append, whole, next, wordBytes_append,
      slice_splice_disjoint (by omega), pile.written]
  · refine ⟨bottom, by omega, strings.congr ?_⟩
    intro index far
    apply byteAt_splice_outside
    omega

theorem copyout_words {post : Bool → Heap kernelEnd → Prop}
    (stack : Stack h roots pgdir g y page) (more : R.live ⊆ roots)
    (pile : Pile page ((g + 1) * PGSIZE) words addresses argv sp) (some : words' ≠ [])
    (below : va + 8 * words'.length = sp) (low : (g + 1) * PGSIZE ≤ sp + 8)
    (refused : ∀ h', h'.Keeps roots → va < (g + 1) * PGSIZE → h'.tf = h.tf → post false h')
    (done : ∀ h' page', Stack h' roots pgdir g y page' → (g + 1) * PGSIZE ≤ va →
      Pile page' ((g + 1) * PGSIZE) (words' ++ words) addresses argv va → h'.tf = h.tf →
      Elsewhere h h' y → post true h') :
    R.wp (copyout pgdir va (wordBytes words')) h post := by
  rcases pile.strings with ⟨bottom, above, strings⟩
  have high := strings.le_top
  have size := wordBytes_length words'
  have positive := List.length_pos_iff.mpr some
  apply copyout_stack stack more
  · rw [← List.length_pos_iff]
    omega
  · simp only [PGSIZE] at low ⊢
    omega
  · simp only [PGSIZE] at high ⊢
    omega
  · exact fun h' outside keeps' tf => refused h' keeps' outside tf
  · intro h' inside stack' elsewhere tf
    exact done h' _ stack' inside (pile.push inside below) tf elsewhere

theorem sub64_eq {a b : Nat} (le : b ≤ a) (fits : a < 2 ^ 64) : sub64 a b = a - b := by
  rw [sub64]
  omega

/-- The words which `execve` leaves above the stack pointer. -/
def vectors (addresses : List Nat) : List Nat :=
  [addresses.length] ++ (addresses ++ [0]) ++ [0] ++ [0, AT_PAGESZ, PGSIZE, AT_NULL]

/-- The bytes above the vectors which keep the stack pointer aligned. -/
def pad (argc : Nat) : Nat := if argc % 2 = 0 then 8 else 0

/-- The bytes of `argv`, the environment and the auxiliary vector. -/
def vectorBytes (argc : Nat) : Nat := pad argc + 40 + 8 * (argc + 1)

theorem pad_le {argc : Nat} : pad argc ≤ 8 := by
  rw [pad]
  split <;> omega

/--
What has become of the trapframe where the vectors do not fit above `base`: `r1` is set before
the vector of the arguments and `argc` are copied.
-/
def VectorsRefused (base sp argc : Nat) (tf tf' : Trapframe) : Prop :=
  sp < base + pad argc + 40 ∧ tf' = { tf with r0 := argc } ∨
    base + pad argc + 40 ≤ sp ∧ sp < base + vectorBytes argc + 8 ∧
      tf' = { tf with r0 := argc, r1 := sp - vectorBytes argc }

theorem pushVectors_stack {post : Option Nat → Heap kernelEnd → Prop}
    (stack : Stack h roots pgdir g y page) (more : R.live ⊆ roots)
    (strings : Strings page ((g + 1) * PGSIZE) addresses argv sp)
    (few : addresses.length ≤ MAXARG)
    (fail : ∀ h', h'.Keeps roots →
      VectorsRefused ((g + 1) * PGSIZE) sp addresses.length h.tf h'.tf → post none h')
    (done : ∀ h' page' sp', Stack h' roots pgdir g y page' → (g + 1) * PGSIZE ≤ sp' →
      Pile page' ((g + 1) * PGSIZE) (vectors addresses) addresses argv sp' →
      h'.tf.r0 = addresses.length → (g + 1) * PGSIZE + vectorBytes addresses.length + 8 ≤ sp →
      Elsewhere h h' y → post (some sp') h') :
    R.wp (pushVectors R.self pgdir addresses sp) h post := by
  have low := strings.base_le
  have high := strings.le_top
  have small := stack.small
  have stack' : ∀ tf, Stack { h with tf := tf } roots pgdir g y page := fun _ => stack.setTf
  have start : (if addresses.length % 2 = 0 then sub64 sp 8 else sp) =
      sp - pad addresses.length := by
    rw [pad]
    split
    · apply sub64_eq <;> (simp only [PGSIZE] at low high; omega)
    · rfl
  have padding : pad addresses.length ≤ 8 := pad_le
  apply R.bind
  apply R.proc
  intro proc tf
  apply R.bind
  apply R.setTf ((stack' _).keeps.mono more)
  simp only [start]
  have bottom : Pile page ((g + 1) * PGSIZE) [] addresses argv (sp - pad addresses.length) :=
    ⟨rfl, sp, Nat.sub_le _ _, strings⟩
  simp only [PGSIZE] at low high
  rw [sub64_eq (by omega : 32 ≤ sp - pad addresses.length) (by omega)]
  apply R.bind
  apply copyout_words (stack' _) more bottom (List.cons_ne_nil _ _)
  · simp only [List.length_cons, List.length_nil]
    omega
  · simp only [PGSIZE]
    omega
  · intro h' keeps' outside tf'
    refine R.ret (fail h' keeps' (Or.inl ⟨?_, ?_⟩))
    · simp only [PGSIZE] at outside ⊢
      omega
    · rw [tf', tf]
  intro h₁ page₁ stack₁ inside₁ pile₁ tf₁ elsewhere₁
  simp only [PGSIZE] at inside₁
  rw [if_pos rfl, sub64_eq (by omega : 8 ≤ sp - pad addresses.length - 32) (by omega)]
  apply R.bind
  apply copyout_words stack₁ more pile₁ (List.cons_ne_nil _ _)
  · simp only [List.length_cons, List.length_nil]
    omega
  · simp only [PGSIZE]
    omega
  · intro h' keeps' outside tf'
    refine R.ret (fail h' keeps' (Or.inl ⟨?_, ?_⟩))
    · simp only [PGSIZE] at outside ⊢
      omega
    · rw [tf', tf₁, tf]
  intro h₂ page₂ stack₂ inside₂ pile₂ tf₂ elsewhere₂
  simp only [PGSIZE, MAXARG] at inside₂ few
  have place : sp - pad addresses.length - 32 - 8 - (addresses.length + 1) * 8 =
      sp - vectorBytes addresses.length := by
    rw [vectorBytes]
    omega
  rw [if_pos rfl, sub64_eq (by omega : (addresses.length + 1) * 8 ≤
    sp - pad addresses.length - 32 - 8) (by omega)]
  apply R.bind
  apply R.proc
  intro proc' tf'
  have before : proc'.tf = { h.tf with r0 := addresses.length } := by
    rw [tf', tf₂, tf₁, tf]
  apply R.bind
  apply R.setTf (stack₂.setTf.keeps.mono more)
  apply R.bind
  apply copyout_words stack₂.setTf more pile₂
    (List.append_ne_nil_of_right_ne_nil _ (List.cons_ne_nil _ _))
  · simp only [List.length_append, List.length_cons, List.length_nil]
    omega
  · simp only [PGSIZE]
    omega
  · intro h' keeps' outside tf₃
    refine R.ret (fail h' keeps' (Or.inr ⟨?_, ?_, ?_⟩))
    · simp only [PGSIZE]
      omega
    · rw [vectorBytes]
      simp only [PGSIZE] at outside ⊢
      omega
    · rw [tf₃, before, place]
  intro h₃ page₃ stack₃ inside₃ pile₃ tf₃ elsewhere₃
  simp only [PGSIZE] at inside₃
  rw [if_pos rfl, sub64_eq
    (by omega : 8 ≤ sp - pad addresses.length - 32 - 8 - (addresses.length + 1) * 8) (by omega)]
  apply R.bind
  apply R.proc
  intro proc'' tf''
  have argc : proc''.tf.r0 = addresses.length := by
    rw [tf'', tf₃]
    change proc'.tf.r0 = addresses.length
    rw [before]
  rw [argc]
  apply R.bind
  apply copyout_words stack₃ more pile₃ (List.cons_ne_nil _ _)
  · simp only [List.length_cons, List.length_nil]
    omega
  · simp only [PGSIZE]
    omega
  · intro h' keeps' outside tf₄
    refine R.ret (fail h' keeps' (Or.inr ⟨?_, ?_, ?_⟩))
    · simp only [PGSIZE]
      omega
    · rw [vectorBytes]
      simp only [PGSIZE] at outside ⊢
      omega
    · rw [tf₄, tf₃, before, place]
  intro h₄ page₄ stack₄ inside₄ pile₄ tf₄ elsewhere₄
  rw [if_pos rfl]
  apply R.ret
  apply done h₄ page₄ _ stack₄ inside₄
  · simpa [vectors] using pile₄
  · rw [tf₄, ← tf'', argc]
  · rw [place] at inside₄
    have positive : 0 < PGSIZE := by decide
    have some : 0 < (g + 1) * PGSIZE := Nat.mul_pos (Nat.succ_pos g) positive
    clear * - inside₄ some
    omega
  · exact ((elsewhere₁.trans elsewhere₂).trans elsewhere₃).trans elsewhere₄

/-! ## The user stack -/

theorem pages_mul (n : Nat) : pages (n * PGSIZE) = n := by
  simp only [pages, PGSIZE]
  omega

/-- There is memory for the user stack. -/
def StackMemory (sz free : Nat) : Prop :=
  (pages sz + 2) * PGSIZE < UADDR_SZ ∧ need (pages sz + 2) - need (pages sz) ≤ free

/--
The strings, the auxiliary vector and the environment fit into the stack page, but the vector
of the arguments and `argc` do not.
-/
def Overflows (argv : List (List UInt8)) : Prop :=
  argv.length ≤ MAXARG ∧ stringBytes argv + pad argv.length + 40 ≤ PGSIZE ∧
    PGSIZE < stringBytes argv + vectorBytes argv.length + 8

/-- The address of the vector of the arguments. -/
def argvAddress (sz : Nat) (argv : List (List UInt8)) : Nat :=
  (pages sz + 2) * PGSIZE - stringBytes argv - vectorBytes argv.length

/-- Filling the user stack changes the register `r1` and fails. -/
def Clobbers (argv : List (List UInt8)) (r1 sz free : Nat) : Prop :=
  StackMemory sz free ∧ Overflows argv ∧ argvAddress sz argv ≠ r1

/-- The registers after a failure: another `r1` if `Q`. -/
def Kept (Q : Prop) (tf tf' : Trapframe) : Prop :=
  (Q → tf'.r1 ≠ tf.r1) ∧ (¬ Q → ∃ r0, tf' = { tf with r0 := r0 })

theorem Kept.same {Q : Prop} {tf tf' : Trapframe} (same : tf' = tf) (not : ¬ Q) :
    Kept Q tf tf' :=
  ⟨fun holds => absurd holds not, fun _ => ⟨tf.r0, same⟩⟩

/-- Where the vectors are refused the register `r1` is lost, or it was the address. -/
theorem VectorsRefused.kept {sz free : Nat} {tf tf' : Trapframe}
    (memory : StackMemory sz free) (few : argv.length ≤ MAXARG)
    (place : sp + stringBytes argv = (pages sz + 2) * PGSIZE)
    (refused : VectorsRefused ((pages sz + 1) * PGSIZE) sp argv.length tf tf') :
    Kept (Clobbers argv tf.r1 sz free) tf tf' := by
  have top : (pages sz + 2) * PGSIZE = (pages sz + 1) * PGSIZE + PGSIZE := by ring
  have address : argvAddress sz argv = sp - vectorBytes argv.length := by
    rw [argvAddress]
    omega
  rcases refused with ⟨early, same⟩ | ⟨fits, late, same⟩
  · constructor
    · rintro ⟨_, ⟨_, fits, _⟩, _⟩
      omega
    · exact fun _ => ⟨_, same⟩
  · constructor
    · rintro ⟨_, _, other⟩
      rw [same, ← address]
      exact other
    · intro kept
      have equal : argvAddress sz argv = tf.r1 := by
        by_contra other
        exact kept ⟨memory, ⟨few, by omega, by omega⟩, other⟩
      refine ⟨argv.length, ?_⟩
      rw [same, ← address, equal]

theorem userStack_stack {post : Option (Nat × Nat) → Heap kernelEnd → Prop} {P Q : Prop}
    {sz : Nat} (noZero : 0 < kernelEnd) (keeps : h.Keeps roots) (more : R.live ⊆ roots)
    (tree : (pgdir, 4) ∈ roots) (span : Span h pgdir (pages sz) fun _ => true)
    (short : ∀ arg, arg ∈ argv → arg.length + 1 ≤ UADDR_SZ) (low : sz < UADDR_SZ)
    (meaning : ∀ free, h.supply = some free → (P ↔ StackHarmless argv sz free))
    (clobbers : ∀ free, h.supply = some free → (Q ↔ Clobbers argv h.tf.r1 sz free))
    (panics : Known h (¬ P) → ∀ message, R.mayPanic message)
    (fail : ∀ h', h'.Keeps roots → Known h P → Known h (Kept Q h.tf h'.tf) → post none h')
    (done : ∀ h' y page addresses sp, (pages sz + 2) * PGSIZE < UADDR_SZ →
      Stack h' roots pgdir (pages sz) y page → (pages sz + 1) * PGSIZE ≤ sp →
      Pile page ((pages sz + 1) * PGSIZE) (vectors addresses) addresses argv sp →
      h'.tf.r0 = argv.length → Known h P → Known h (¬ Q) →
      (∀ n, n < pages sz → Agree h h' pgdir n) →
      post (some ((pages sz + 2) * PGSIZE, sp)) h') :
    R.wp (userStack kernelEnd R.self pgdir argv sz) h post := by
  have sum : pages sz * PGSIZE + 2 * PGSIZE = (pages sz + 2) * PGSIZE := by ring
  have top : (pages sz + 2) * PGSIZE = (pages sz + 1) * PGSIZE + PGSIZE := by ring
  rw [userStack, ROUNDUP_page, sum]
  have span' : Span h pgdir (pages (pages sz * PGSIZE)) fun _ => true := by
    rw [pages_mul]
    exact span
  -- Without the memory nothing is pushed.
  have refused : ∀ h', h'.Keeps roots → h'.tf = h.tf →
      (∀ free, h.supply = some free → ¬ StackMemory sz free) → post none h' := by
    intro h' keeps' tf missing
    apply fail h' keeps'
    · intro free supply
      exact (meaning free supply).mpr fun low enough => absurd ⟨low, enough⟩ (missing free supply)
    · intro free supply
      refine .same tf ?_
      rw [clobbers free supply]
      exact fun wrong => missing free supply wrong.1
  have bound : pages sz ≤ 2 ^ 16 := pages_lt low
  apply R.bind
  -- The pages of the segments stay.
  have contiguous := span'.contiguous keeps tree (by rwa [pages_mul])
  apply R.knowing (uvmAlloc_agree noZero keeps more tree contiguous)
  rw [pages_mul]
  apply R.untouched uvmAlloc_only
  apply uvmAlloc_span noZero keeps more tree span'
  · intro large _ _
    exact R.ret (refused h keeps rfl fun free _ both => by
      have := both.1
      omega)
  · intro _ smaller
    simp only [PGSIZE] at smaller
    omega
  · intro h' address _ keeps' missing tf _
    rw [pages_mul, pages_mul] at missing
    refine R.ret (refused h' keeps' tf fun free supply both => ?_)
    have := missing free supply
    have := both.2
    omega
  · intro h' address _ keeps' spent grown tf old
    have low := pages_lt address
    rw [pages_mul, pages_mul] at spent
    rw [pages_mul] at grown low
    have memory : ∀ free, h.supply = some free → StackMemory sz free :=
      fun free supply => ⟨address, spent.2 free supply⟩
    have known : ∀ free, h.supply = some free →
        (P ↔ ArgumentsHarmless ((pages sz + 1) * PGSIZE) argv 0 ((pages sz + 2) * PGSIZE)) := by
      intro free supply
      rw [meaning free supply]
      constructor
      · exact fun harmless => harmless address (spent.2 free supply)
      · exact fun harmless _ _ => harmless
    have back : (pages sz + 2) * PGSIZE - 2 * PGSIZE = pages sz * PGSIZE := by omega
    have nonzero : (pages sz + 2) * PGSIZE ≠ 0 := by
      simp only [PGSIZE]
      omega
    rw [if_neg nonzero, back]
    apply R.bind
    apply R.untouched clearpteu_only
    apply clearpteu_span keeps' more tree grown low (by omega)
    intro h'' keeps'' _ hidden agree tf'
    rcases hidden.some_table (by omega : pages sz + 1 < pages sz + 2) with ⟨t, found⟩
    rcases hidden.entry keeps'' tree found with ⟨_, _, entry⟩
    rw [if_pos (by omega)] at entry
    rcases entry with ⟨y, _, found', _⟩
    have four : (pagePath (pages sz + 1)).length = 4 := by simp [pagePath, tablePath]
    rcases Heap.mem_owned.mp (Forest.mem keeps'' pgdir 4 tree _ y four.le found') with
      ⟨page, here⟩
    have stack : Stack h'' roots pgdir (pages sz) y page :=
      ⟨keeps'', tree, low, hidden, found', here⟩
    have empty : Strings page ((pages sz + 1) * PGSIZE) [] [] ((pages sz + 2) * PGSIZE) := by
      rw [top]
      exact .nil
    have registers : h''.tf = h.tf := tf'.trans tf
    apply R.bind
    apply pushArguments_stack stack more empty (Nat.add_zero _) short
    · intro wrong
      exact panics fun free supply holds => wrong ((known free supply).mp holds)
    · intro h₁ keeps₁ harmless tf₁ exceeds
      apply R.ret
      apply fail h₁ keeps₁ fun free supply => (known free supply).mpr harmless
      intro free supply
      refine .same (tf₁.trans registers) ?_
      rw [clobbers free supply]
      rintro ⟨_, ⟨few, fits, _⟩, _⟩
      have long : PGSIZE < stringBytes argv := exceeds (by simpa using few)
      omega
    · intro h₁ page₁ addresses sp stack₁ strings harmless few place tf₁ elsewhere
      rw [List.nil_append] at strings
      have count := strings.length_eq
      have few' : argv.length ≤ MAXARG := by
        rw [← count]
        simpa using few
      have registers₁ : h₁.tf = h.tf := tf₁.trans registers
      apply R.bind
      apply pushVectors_stack stack₁ more strings (by omega)
      · intro h₂ keeps₂ refused₂
        apply R.ret
        apply fail h₂ keeps₂ fun free supply => (known free supply).mpr harmless
        intro free supply
        rw [count, registers₁] at refused₂
        have kept := refused₂.kept (memory free supply) few' place
        rw [Kept, clobbers free supply]
        exact kept
      · intro h₂ page₂ sp' stack₂ inside pile argc room elsewhere'
        apply R.ret
        apply done h₂ y page₂ addresses sp' address stack₂ inside pile
        · rw [argc, count]
        · exact fun free supply => (known free supply).mpr harmless
        · intro free supply
          rw [clobbers free supply]
          rintro ⟨_, ⟨_, _, exceeds⟩, _⟩
          have placed : sp + stringBytes argv = (pages sz + 2) * PGSIZE := place
          rw [count] at room
          omega
        · intro n below
          have far : n < PAGES := by
            simp only [PAGES]
            omega
          have leaf : h''.links.follow pgdir (leafPath (pages sz + 1)) = some y := by
            rw [← pagePath_eq (by omega)]
            exact found'
          exact ((old nonzero n far below).trans (agree n)).trans
            ((elsewhere.trans elsewhere').agree keeps'' tree leaf (by simp only [PAGES]; omega)
              far (by omega))

end Vectors

end PiKernel.Vm
