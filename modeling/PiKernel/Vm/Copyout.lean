import PiKernel.Vm.Decode
import PiKernel.Vm.Translation

/-!
# `copyout` to any address

`copyout` writes page by page, and stops at the first one that the process may not access.  It
looks at the entry of that page also where there is none, as `uva2ka` does not ask whether the
walk has found it; and the walk takes addresses for ones of 48 bits.
-/

namespace PiKernel.Vm

open PiKernel.Bytes
open PiKernel.Conc
open PiKernel.Conc.Prog (perform)

/-! ## Addresses -/

/-- The address of a byte of a range; addresses have 64 bits. -/
def addr (va i : Nat) : Nat := (va + i) % 2 ^ 64

/-- The page that the tables give for an address, if a process may access it. -/
def seenPage (mem : Nat → Page) (pgdir va : Nat) : Option Nat :=
  (translate mem pgdir va).bind fun w => if user w then some (pageOf w) else none

/-- The bytes of a range before a number are on pages that the process may access. -/
def Reaches (mem : Nat → Page) (pgdir va n : Nat) : Prop :=
  ∀ i, i < n → (seenPage mem pgdir (addr va i)).isSome

variable {mem : Nat → Page} {pgdir va va' i j n x y off level levels : Nat}

theorem addr_page (inside : addr va j % PGSIZE + i < PGSIZE) :
    addr va (j + i) = addr va j + i := by
  simp only [addr, PGSIZE] at inside ⊢
  omega

/-- The 48 bits of different bytes of a range that memory can hold are different. -/
theorem addr_injective (low : i < PHYSTOP) (low' : j < PHYSTOP)
    (page : addr va i / PGSIZE % PAGES = addr va j / PGSIZE % PAGES)
    (offset : addr va i % PGSIZE = addr va j % PGSIZE) : i = j := by
  simp only [addr, PGSIZE, PAGES, PHYSTOP] at low low' page offset
  omega

theorem ROUNDDOWN_page : ROUNDDOWN va PGSIZE = va / PGSIZE * PGSIZE := by
  simp only [ROUNDDOWN, PGSIZE]
  omega

theorem walkPath_congr (same : va / PGSIZE = va' / PGSIZE) :
    walkPath va 3 0 = walkPath va' 3 0 := by
  rw [← walkPath_number, same, walkPath_number]

theorem PTX_congr (same : va / PGSIZE = va' / PGSIZE) : PTX 3 va = PTX 3 va' := by
  change va / PGSIZE % ENTRYSZ = va' / PGSIZE % ENTRYSZ
  rw [same]

theorem HasTable_congr (same : va / PGSIZE = va' / PGSIZE) :
    HasTable mem pgdir va ↔ HasTable mem pgdir va' := by
  rw [HasTable, HasTable, walkPath_congr same]

/-- Addresses of one page have one entry. -/
theorem translate_congr (same : va / PGSIZE = va' / PGSIZE) :
    translate mem pgdir va = translate mem pgdir va' := by
  rw [translate, translate, walkPath_congr same, PTX_congr same]

theorem seenPage_congr (same : va / PGSIZE = va' / PGSIZE) :
    seenPage mem pgdir va = seenPage mem pgdir va' := by
  rw [seenPage, seenPage, translate_congr same]

theorem seenPage_eq_some :
    seenPage mem pgdir va = some y ↔
      ∃ w, translate mem pgdir va = some w ∧ user w = true ∧ pageOf w = y := by
  rw [seenPage, Option.bind_eq_some_iff]
  refine exists_congr fun w => and_congr_right fun _ => ?_
  rw [Option.ite_none_right_eq_some, Option.some.injEq]

theorem HasTable_of_seen (seen : seenPage mem pgdir va = some y) : HasTable mem pgdir va := by
  rcases seenPage_eq_some.mp seen with ⟨w, found, _⟩
  rcases Option.bind_eq_some_iff.mp found with ⟨t, table, _⟩
  rw [HasTable, table]
  rfl

theorem mappedPage_translate :
    mappedPage mem pgdir va = (translate mem pgdir va).map pageOf := by
  have way : walkPath va 4 0 = walkPath va 3 0 ++ [PTX 3 va] := rfl
  rw [mappedPage, translate, way, Links.follow_append]
  cases (links mem).follow pgdir (walkPath va 3 0) with
  | none => rfl
  | some t =>
      rw [Option.bind_some, Option.bind_some, valid_map_pageOf, Links.follow_cons, links, children]
      cases target (word (mem t) (PTX 3 va)) with
      | none => rfl
      | some y => rfl

theorem mappedPage_of_seen (seen : seenPage mem pgdir va = some y) :
    mappedPage mem pgdir va = some y := by
  rcases seenPage_eq_some.mp seen with ⟨w, found, _, page⟩
  rw [mappedPage_translate, found, Option.map_some, page]

/-- Up to 48 bits, what the tables give is what the process finds. -/
theorem userPage_eq :
    userPage mem pgdir va = if va < 2 ^ 48 then seenPage mem pgdir va else none := by
  rw [userPage]
  congr 1
  rw [seenPage, translate, Option.bind_assoc]
  congr 1
  funext t
  cases here : present (word (mem t) (PTX 3 va)) with
  | false => simp [here, valid_of_absent here]
  | true => simp [here, valid_of_present here]

/-! ## Distinct pages -/

section Machine

variable {kernelEnd : Nat} {Pid : Type} {p : Pid} {s s' : Machine Pid} {roots : Set (Nat × Nat)}
  {page : Page} {buf : List UInt8}

/-- Two addresses of one page have the same number. -/
theorem mappedPage_injective (keeps : (s.view kernelEnd p).Keeps roots)
    (tree : (pgdir, 4) ∈ roots) (found : mappedPage s.mem pgdir va = some y)
    (found' : mappedPage s.mem pgdir va' = some y) :
    va / PGSIZE % PAGES = va' / PGSIZE % PAGES := by
  rw [mappedPage_eq keeps tree] at found found'
  have equal := Forest.once keeps pgdir 4 tree pgdir 4 tree _ _ y leafPath_length.le
    leafPath_length.le found found'
  exact leafPath_mod equal.2.2

/-- Not more bytes can be reached than memory has. -/
theorem Reaches.small (reaches : Reaches s.mem pgdir va n)
    (keeps : (s.view kernelEnd p).Keeps roots) (tree : (pgdir, 4) ∈ roots) : n ≤ PHYSTOP := by
  by_contra many
  have few : PHYSTOP / PGSIZE + 1 ≤ PHYSTOP / PGSIZE := by
    apply Heap.few_mapped keeps tree fun k => addr va (k * PGSIZE) / PGSIZE
    · intro k m below below' same
      simp only [addr, PHYSTOP, PGSIZE, PAGES] at below below' same
      omega
    · intro k below
      have inside : k * PGSIZE < n := by
        simp only [PHYSTOP, PGSIZE] at below many ⊢
        omega
      rcases Option.isSome_iff_exists.mp (reaches _ inside) with ⟨y, seen⟩
      rw [← mappedPage_eq keeps tree, mappedPage_of_seen seen]
      rfl
  omega

/-- No byte of physical memory has two places in a range. -/
theorem Reaches.injective (reaches : Reaches s.mem pgdir va n)
    (keeps : (s.view kernelEnd p).Keeps roots) (tree : (pgdir, 4) ∈ roots) (below : i < n)
    (below' : j < n) (seen : seenPage s.mem pgdir (addr va i) = some y)
    (seen' : seenPage s.mem pgdir (addr va j) = some y)
    (offset : addr va i % PGSIZE = addr va j % PGSIZE) : i = j := by
  have few := reaches.small keeps tree
  exact addr_injective (by omega) (by omega)
    (mappedPage_injective keeps tree (mappedPage_of_seen seen) (mappedPage_of_seen seen')) offset

/-- The entries stay where a page that is mapped is written. -/
theorem translate_setMem (keeps : (s.view kernelEnd p).Keeps roots) (tree : (pgdir, 4) ∈ roots)
    (found : mappedPage s.mem pgdir va = some x) :
    translate (s.setMem x page).mem pgdir va' = translate s.mem pgdir va' := by
  have length : (walkPath va' 3 0).length ≤ 4 := by
    rw [walkPath_length]
    decide
  rw [translate, translate, follow_setMem keeps tree tree found length]
  cases reached : (links s.mem).follow pgdir (walkPath va' 3 0) with
  | none => rw [Option.bind_none, Option.bind_none]
  | some t =>
      have differs : t ≠ x := by
        rintro rfl
        rw [Machine.follow_view keeps tree length] at reached
        rw [mappedPage, Machine.follow_view keeps tree (by rw [walkPath_length])] at found
        have equal := Forest.once keeps pgdir 4 tree pgdir 4 tree _ _ t length
          (by rw [walkPath_length]) reached found
        have lengths := congrArg List.length equal.2.2
        rw [walkPath_length, walkPath_length] at lengths
        cases lengths
      rw [Option.bind_some, Option.bind_some, Machine.mem_setMem_other differs]

/-! ## The loop -/

/-- The first bytes of a range have been written. -/
structure Outputting (kernelEnd : Nat) (p : Pid) (s s' : Machine Pid) (roots : Set (Nat × Nat))
    (pgdir va : Nat) (buf : List UInt8) (n : Nat) : Prop where
  keeps : (s'.view kernelEnd p).Keeps roots
  rest : s' = { s with mem := s'.mem }
  tables : ∀ va, HasTable s'.mem pgdir va ↔ HasTable s.mem pgdir va
  entries : ∀ va, translate s'.mem pgdir va = translate s.mem pgdir va
  written : ∀ i, i < n → ∃ y, seenPage s.mem pgdir (addr va i) = some y ∧
    buf[i]? = some (byteAt (s'.mem y) (addr va i % PGSIZE))
  kept : ∀ x off, (∀ i, i < n → seenPage s.mem pgdir (addr va i) = some x →
    addr va i % PGSIZE ≠ off) → byteAt (s'.mem x) off = byteAt (s.mem x) off

namespace Outputting

theorem start (keeps : (s.view kernelEnd p).Keeps roots) :
    Outputting kernelEnd p s s roots pgdir va buf 0 where
  keeps := keeps
  rest := rfl
  tables _ := Iff.rfl
  entries _ := rfl
  written i below := absurd below (Nat.not_lt_zero i)
  kept _ _ _ := rfl

theorem reaches (outputting : Outputting kernelEnd p s s' roots pgdir va buf n) :
    Reaches s.mem pgdir va n := by
  intro i below
  rcases outputting.written i below with ⟨y, seen, _⟩
  rw [seen]
  rfl

theorem seenPage (outputting : Outputting kernelEnd p s s' roots pgdir va buf n) :
    seenPage s'.mem pgdir va' = Vm.seenPage s.mem pgdir va' := by
  rw [Vm.seenPage, Vm.seenPage, outputting.entries]

/-- The bytes on the next page are written. -/
theorem write {count : Nat} (outputting : Outputting kernelEnd p s s' roots pgdir va buf n)
    (keeps : (s.view kernelEnd p).Keeps roots) (tree : (pgdir, 4) ∈ roots)
    (seen : Vm.seenPage s.mem pgdir (addr va n) = some y)
    (fits : addr va n % PGSIZE + count ≤ PGSIZE) (inside : n + count ≤ buf.length) :
    Outputting kernelEnd p s
      (s'.setMem y (splice (s'.mem y) (addr va n % PGSIZE) ((buf.drop n).take count))) roots
      pgdir va buf (n + count) := by
  have found : mappedPage s'.mem pgdir (addr va n) = some y :=
    mappedPage_of_seen (outputting.seenPage.trans seen)
  have length : ((buf.drop n).take count).length = count := by
    rw [List.length_take, List.length_drop]
    omega
  -- the bytes from `n` on are on the page at `y`, one behind the other
  have place : ∀ i, i < count → addr va (n + i) = addr va n + i ∧
      Vm.seenPage s.mem pgdir (addr va (n + i)) = some y := by
    intro i below
    have next : addr va (n + i) = addr va n + i := addr_page (by omega)
    refine ⟨next, ?_⟩
    rw [← seen]
    apply seenPage_congr
    rw [next]
    simp only [PGSIZE] at fits ⊢
    omega
  have reaches : Reaches s.mem pgdir va (n + count) := by
    intro i below
    by_cases old : i < n
    · exact outputting.reaches i old
    · have page := (place (i - n) (by omega)).2
      rw [show n + (i - n) = i by omega] at page
      rw [page]
      rfl
  constructor
  · exact setMem_keeps outputting.keeps tree found
  · rw [outputting.rest]
    rfl
  · intro va'
    rw [← outputting.tables, HasTable, HasTable,
      follow_setMem outputting.keeps tree tree found (by rw [walkPath_length]; decide)]
  · intro va'
    rw [translate_setMem outputting.keeps tree found, outputting.entries]
  · intro i below
    by_cases old : i < n
    · rcases outputting.written i old with ⟨z, seen', byte⟩
      refine ⟨z, seen', ?_⟩
      rw [byte]
      by_cases same : z = y
      · subst same
        rw [Machine.mem_setMem_same, byteAt_splice_outside]
        rw [length]
        by_contra covered
        have new := place (addr va i % PGSIZE - addr va n % PGSIZE) (by omega)
        have index := reaches.injective keeps tree below (by omega) seen' new.2 (by
          rw [new.1]
          simp only [PGSIZE] at covered fits ⊢
          omega)
        omega
      · rw [Machine.mem_setMem_other same]
    · have new := place (i - n) (by omega)
      rw [show n + (i - n) = i by omega] at new
      refine ⟨y, new.2, ?_⟩
      have offset : addr va i % PGSIZE = addr va n % PGSIZE + (i - n) := by
        rw [new.1]
        simp only [PGSIZE] at fits ⊢
        omega
      have within : i - n < ((buf.drop n).take count).length := by omega
      rw [Machine.mem_setMem_same, offset, byteAt_splice_inside within (by omega),
        List.getElem_take, List.getElem_drop, List.getElem?_eq_getElem (by omega)]
      congr 2
      omega
  · intro x off missed
    have before := outputting.kept x off fun i below => missed i (by omega)
    by_cases same : x = y
    · subst same
      rw [Machine.mem_setMem_same, byteAt_splice_outside, before]
      rw [length]
      by_contra covered
      have new := place (off - addr va n % PGSIZE) (by omega)
      apply missed _ _ new.2
      · rw [new.1]
        simp only [PGSIZE] at covered fits ⊢
        omega
      · omega
    · rw [Machine.mem_setMem_other same, before]

end Outputting

variable [DecidableEq Pid] {mayPanic : String → Prop} {fuel cursor : Nat}

theorem pgdirWalkLoop_ends {post : Option (Nat × Nat) → Machine Pid → Prop}
    (next : post (((links s.mem).follow x (walkPath va levels level)).map
      fun t => (t, PTX (level + levels) va)) s) :
    machine.Ends p mayPanic post (pgdirWalkLoop va false levels level x) s := by
  induction levels generalizing x level with
  | zero => exact .ret next
  | succ levels ih =>
      rw [walkPath, Links.follow_cons] at next
      refine .step rfl ?_
      cases linked : links s.mem x (PTX level va) with
      | none =>
          rw [linked] at next
          simp only [children_eq_none linked]
          exact .ret next
      | some y =>
          rw [linked, Option.bind_some] at next
          rcases children_eq_some linked with ⟨here, page⟩
          simp only [here, page]
          apply ih
          rwa [Nat.succ_add_eq_add_succ]

/-- `uva2ka` looks at the entry also where there is no table. -/
theorem uva2ka_ends {post : Option Nat → Machine Pid → Prop}
    (missing : ¬ HasTable s.mem pgdir va → mayPanic "uva2ka: null page table entry")
    (next : HasTable s.mem pgdir va → post (seenPage s.mem pgdir va) s) :
    machine.Ends p mayPanic post (uva2ka pgdir va) s := by
  apply System.Ends.bind
  apply pgdirWalkLoop_ends
  cases table : (links s.mem).follow pgdir (walkPath va 3 0) with
  | none =>
      apply System.Ends.panic
      apply missing
      rw [HasTable, table]
      exact Bool.false_ne_true
  | some t =>
      have here : HasTable s.mem pgdir va := by
        rw [HasTable, table]
        rfl
      have seen := next here
      rw [seenPage, translate, table, Option.bind_some] at seen
      refine .step rfl ?_
      apply System.Ends.ret
      cases present_t : present (word (s.mem t) (PTX 3 va)) with
      | false =>
          rw [valid_of_absent present_t] at seen
          exact seen
      | true =>
          rw [valid_of_present present_t] at seen
          simpa using seen

/-- The loop goes on up to the first page that the process may not access. -/
theorem copyoutLoop_ends {post : Bool → Machine Pid → Prop}
    (keeps : (s.view kernelEnd p).Keeps roots) (tree : (pgdir, 4) ∈ roots)
    (outputting : Outputting kernelEnd p s s' roots pgdir va buf n) (inside : n ≤ buf.length)
    (position : n < buf.length → cursor = addr va n)
    (enough : n < buf.length → buf.length - n + cursor % PGSIZE ≤ fuel * PGSIZE)
    (missing : ∀ i, i < buf.length → Reaches s.mem pgdir va i →
      ¬ HasTable s.mem pgdir (addr va i) → mayPanic "uva2ka: null page table entry")
    (fail : ∀ s'' i, Outputting kernelEnd p s s'' roots pgdir va buf i → i < buf.length →
      HasTable s.mem pgdir (addr va i) → seenPage s.mem pgdir (addr va i) = none → post false s'')
    (done : ∀ s'', Outputting kernelEnd p s s'' roots pgdir va buf buf.length → post true s'') :
    machine.Ends p mayPanic post (copyoutLoop pgdir fuel cursor (buf.drop n)) s' := by
  induction fuel generalizing s' n cursor with
  | zero =>
      have all : n = buf.length := by
        simp only [PGSIZE] at enough
        omega
      exact .ret (done s' (all ▸ outputting))
  | succ fuel ih =>
      rw [copyoutLoop, List.length_drop]
      by_cases more : n < buf.length
      · rw [if_neg (by omega)]
        have here := position more
        have budget := enough more
        subst here
        have page : ROUNDDOWN (addr va n) PGSIZE / PGSIZE = addr va n / PGSIZE := by
          rw [ROUNDDOWN_page, Nat.mul_div_cancel _ (by decide)]
        have offset : addr va n - ROUNDDOWN (addr va n) PGSIZE = addr va n % PGSIZE := by
          simp only [ROUNDDOWN, PGSIZE]
          omega
        have table : HasTable s'.mem pgdir (ROUNDDOWN (addr va n) PGSIZE) ↔
            HasTable s.mem pgdir (addr va n) := by
          rw [outputting.tables, HasTable_congr page]
        apply System.Ends.bind
        apply uva2ka_ends
        · intro absent
          exact missing n more outputting.reaches fun here => absent (table.mpr here)
        · intro there
          rw [outputting.seenPage, seenPage_congr page, offset]
          cases seen : seenPage s.mem pgdir (addr va n) with
          | none => exact .ret (fail s' n outputting more (table.mp there) seen)
          | some y =>
              have fits : addr va n % PGSIZE + min (PGSIZE - addr va n % PGSIZE) (buf.length - n) ≤
                  PGSIZE := by
                have within : addr va n % PGSIZE < PGSIZE := Nat.mod_lt _ (by decide)
                omega
              have step := outputting.write keeps tree seen fits (by omega)
              refine .step rfl ?_
              rw [List.drop_drop]
              apply ih step (by omega)
              · intro later
                simp only [addr, ROUNDDOWN, PGSIZE] at later ⊢
                omega
              · intro later
                simp only [ROUNDDOWN, PGSIZE] at later budget ⊢
                omega
      · rw [if_pos (by omega)]
        have all : n = buf.length := by omega
        exact .ret (done s' (all ▸ outputting))

theorem copyout_ends {post : Bool → Machine Pid → Prop}
    (keeps : (s.view kernelEnd p).Keeps roots) (tree : (pgdir, 4) ∈ roots) (fits : va < 2 ^ 64)
    (missing : ∀ i, i < buf.length → Reaches s.mem pgdir va i →
      ¬ HasTable s.mem pgdir (addr va i) → mayPanic "uva2ka: null page table entry")
    (fail : ∀ s' i, Outputting kernelEnd p s s' roots pgdir va buf i → i < buf.length →
      HasTable s.mem pgdir (addr va i) → seenPage s.mem pgdir (addr va i) = none → post false s')
    (done : ∀ s', Outputting kernelEnd p s s' roots pgdir va buf buf.length → post true s') :
    machine.Ends p mayPanic post (copyout pgdir va buf) s := by
  have loop : machine.Ends p mayPanic post
      (copyoutLoop pgdir (buf.length / PGSIZE + 2) va (buf.drop 0)) s := by
    apply copyoutLoop_ends keeps tree (.start keeps) (Nat.zero_le _) _ _ missing fail done
    · intro _
      rw [addr, Nat.add_zero, Nat.mod_eq_of_lt fits]
    · intro _
      simp only [PGSIZE]
      omega
  exact loop

/-! ## What is meant -/

/--
What `copyout` leaves.  It succeeds exactly where the process may access all of the range, which
then has the given bytes; otherwise a part of them at its beginning.  Nothing else is changed.
-/
structure CopiedOut (s s' : Machine Pid) (pgdir va : Nat) (buf : List UInt8) (done : Bool) :
    Prop where
  accessible : done = true → ∀ i, i < buf.length → (userPage s.mem pgdir (addr va i)).isSome
  refused : done = false → ∃ i, i < buf.length ∧ userPage s.mem pgdir (addr va i) = none
  written : ∃ n, n ≤ buf.length ∧ (done = true → n = buf.length) ∧
    (∀ i, i < n → userByte s'.mem pgdir (addr va i) = buf[i]?) ∧
      ∀ x off, (∀ i, i < n → userPage s.mem pgdir (addr va i) = some x →
        addr va i % PGSIZE ≠ off) → byteAt (s'.mem x) off = byteAt (s.mem x) off
  outside : ∀ a, a < 2 ^ 48 → (∀ i, i < buf.length → addr va i ≠ a) →
    byteOf s'.mem pgdir a = byteOf s.mem pgdir a
  rest : s' = { s with mem := s'.mem }

/-- The call returns, and copies as it should, whatever the bytes are. -/
def CopiesOut (p : Pid) (s : Machine Pid) (pgdir va len : Nat) : Prop :=
  ∀ buf : List UInt8, buf.length = len →
    ∃ done s', machine.Completes p (copyout pgdir va buf) s done s' ∧
      CopiedOut s s' pgdir va buf done

/--
Up to the first address that the process may not access, that one has a last table, and the others
are addresses of 48 bits.
-/
def Walkable (mem : Nat → Page) (pgdir va len : Nat) : Prop :=
  ∀ i, i < len → Reaches mem pgdir va i →
    HasTable mem pgdir (addr va i) ∧
      ((seenPage mem pgdir (addr va i)).isSome → addr va i < 2 ^ 48)

omit [DecidableEq Pid] in
/-- What the loop has written is what is meant, if the addresses are ones of 48 bits. -/
theorem Outputting.copiedOut {done : Bool} (keeps : (s.view kernelEnd p).Keeps roots)
    (tree : (pgdir, 4) ∈ roots) (low : ∀ i, i < n → addr va i < 2 ^ 48) (inside : n ≤ buf.length)
    (all : done = true → n = buf.length)
    (stopped : done = false → n < buf.length ∧ Vm.seenPage s.mem pgdir (addr va n) = none)
    (outputting : Outputting kernelEnd p s s' roots pgdir va buf n) :
    CopiedOut s s' pgdir va buf done := by
  have seen : ∀ i, i < n → userPage s.mem pgdir (addr va i) = Vm.seenPage s.mem pgdir (addr va i) :=
    fun i below => by rw [userPage_eq, if_pos (low i below)]
  constructor
  · intro success i below
    rw [← all success] at below
    rw [seen i below]
    exact outputting.reaches i below
  · intro failure
    refine ⟨n, (stopped failure).1, ?_⟩
    rw [userPage_eq, (stopped failure).2, ite_self]
  · refine ⟨n, inside, all, ?_, ?_⟩
    · intro i below
      rcases outputting.written i below with ⟨y, found, byte⟩
      rw [userByte, userPage_eq, if_pos (low i below), outputting.seenPage, found, byte]
      rfl
    · intro x off missed
      apply outputting.kept
      intro i below found
      exact missed i below ((seen i below).trans found)
  · intro a small missed
    have page : mappedPage s'.mem pgdir a = mappedPage s.mem pgdir a := by
      rw [mappedPage_translate, mappedPage_translate, outputting.entries]
    rw [byteOf, byteOf, page]
    cases found : mappedPage s.mem pgdir a with
    | none => rfl
    | some x =>
        rw [Option.map_some, Option.map_some, outputting.kept]
        intro i below here offset
        have number := mappedPage_injective keeps tree (mappedPage_of_seen here) found
        have small' := low i below
        apply missed i (by omega)
        simp only [PGSIZE, PAGES] at number offset
        omega
  · exact outputting.rest

/--
`copyout` does what is meant exactly where it comes to no missing table, and to no address behind
the 48 bits of the tables.
-/
theorem copyout_copiesOut_iff (keeps : (s.view kernelEnd p).Keeps roots)
    (tree : (pgdir, 4) ∈ roots) (fits : va < 2 ^ 64) :
    CopiesOut p s pgdir va n ↔ Walkable s.mem pgdir va n := by
  constructor
  · intro copies i below reaches
    constructor
    · by_contra absent
      have length : (List.replicate n (0 : UInt8)).length = n := List.length_replicate
      rcases copies _ length with ⟨done, s', completes, _⟩
      have never : machine.Ends p (fun _ => True) (fun _ _ => False)
          (copyout pgdir va (List.replicate n 0)) s := by
        apply copyout_ends keeps tree fits
        · exact fun _ _ _ _ => trivial
        · intro s' j outputting _ table none
          rcases Nat.lt_trichotomy j i with before | rfl | behind
          · have seen := reaches j before
            rw [none] at seen
            cases seen
          · exact absent table
          · rcases outputting.written i behind with ⟨y, seen, _⟩
            exact absent (HasTable_of_seen seen)
        · intro s' outputting
          rcases outputting.written i (by omega) with ⟨y, seen, _⟩
          exact absent (HasTable_of_seen seen)
      exact System.Ends.of_completes never completes
    · intro seen
      rcases Option.isSome_iff_exists.mp seen with ⟨y, page⟩
      by_contra high
      -- bytes that are all different from the old ones
      let other : List UInt8 := (List.range n).map fun k =>
        (byteOf s.mem pgdir (addr va k)).getD 0 + 1
      have length : other.length = n := by simp [other]
      rcases copies other length with ⟨done, s', completes, copied⟩
      have beyond : machine.Ends p (fun _ => True)
          (fun _ s' => ∃ j, i < j ∧ Outputting kernelEnd p s s' roots pgdir va other j)
          (copyout pgdir va other) s := by
        apply copyout_ends keeps tree fits
        · exact fun _ _ _ _ => trivial
        · intro s' j outputting _ _ none
          refine ⟨j, ?_, outputting⟩
          by_contra before
          rcases Nat.lt_or_eq_of_le (not_lt.mp before) with less | rfl
          · have seen' := reaches j less
            rw [none] at seen'
            cases seen'
          · rw [none] at page
            cases page
        · intro s' outputting
          exact ⟨_, by omega, outputting⟩
      rcases System.Ends.of_completes beyond completes with ⟨j, further, outputting⟩
      rcases outputting.written i further with ⟨y', page', byte⟩
      rw [page] at page'
      cases page'
      rcases copied.written with ⟨m, _, _, bytes, kept⟩
      by_cases claimed : i < m
      · have impossible := bytes i claimed
        rw [userByte, userPage_eq, if_neg high, byte] at impossible
        cases impossible
      · have same := kept y (addr va i % PGSIZE) (by
          intro k before found offset
          rw [userPage_eq] at found
          have found' := (Option.ite_none_right_eq_some.mp found).2
          have equal := outputting.reaches.injective keeps tree (by omega) further found' page
            offset
          omega)
        have old : byteOf s.mem pgdir (addr va i) =
            some (byteAt (s.mem y) (addr va i % PGSIZE)) := by
          rw [byteOf, mappedPage_of_seen page]
          rfl
        rw [same] at byte
        simp only [other, List.getElem?_map, List.getElem?_range below, Option.map_some, old,
          Option.getD_some, Option.some.injEq] at byte
        exact absurd byte (by simp)
  · intro walkable buf length
    subst length
    have low : ∀ j, j ≤ buf.length → Reaches s.mem pgdir va j → ∀ i, i < j →
        addr va i < 2 ^ 48 := by
      intro j inside reaches i below
      exact (walkable i (by omega) fun k before => reaches k (by omega)).2 (reaches i below)
    apply System.Ends.completes
    apply copyout_ends keeps tree fits
    · exact fun i below reaches absent => absent (walkable i below reaches).1
    · intro s' i outputting below _ none
      apply outputting.copiedOut keeps tree (low i below.le outputting.reaches) below.le
      · intro impossible
        cases impossible
      · exact fun _ => ⟨below, none⟩
    · intro s' outputting
      apply outputting.copiedOut keeps tree (low _ le_rfl outputting.reaches) le_rfl
      · exact fun _ => rfl
      · intro impossible
        cases impossible

end Machine

/-- Two bytes at the end of the only page, and one behind it. -/
theorem copyout_copiesOut_iff_onePage :
    CopiesOut () onePage.2 emptySpace.1 (PGSIZE - 2) 3 ↔
      Walkable onePage.2.mem emptySpace.1 (PGSIZE - 2) 3 :=
  copyout_copiesOut_iff onePage_built.keeps.2 ⟨List.mem_singleton_self _, rfl⟩ (by decide)

/-- There is no last table, or the address is taken for 0. -/
theorem not_copyout_copiesOut_onePage :
    Built 1 () onePage.2 [emptySpace.1] ∧
      ¬ CopiesOut () onePage.2 emptySpace.1 BKSIZE 1 ∧
        ¬ CopiesOut () onePage.2 emptySpace.1 (2 ^ 48) 1 := by
  refine ⟨onePage_built, ?_, ?_⟩
  · intro copies
    rcases copies [1] rfl with ⟨done, s', completes, _⟩
    have panics : (machine.run () (copyout emptySpace.1 BKSIZE [1]) onePage.2).isNone = true := by
      decide
    rw [completes.run_eq] at panics
    cases panics
  · intro copies
    rcases copies [1] rfl with ⟨done, s', completes, copied⟩
    have succeeds : (machine.run () (copyout emptySpace.1 (2 ^ 48) [1]) onePage.2).all
        (fun result => result.1 = true) = true := by
      decide
    rw [completes.run_eq, Option.all_some, decide_eq_true_eq] at succeeds
    have seen := copied.accessible succeeds 0 (by decide)
    rw [userPage, if_neg (by decide)] at seen
    cases seen

end PiKernel.Vm
