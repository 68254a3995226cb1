import PiKernel.Vm.Exec
import PiKernel.Vm.Image

/-!
# Loading an image

When `execve` meets no panic: a condition on the headers of the file, the lengths of
the argument strings and the number of free pages.  The specifications of the two
loops of `execve` relate what is left of the condition to what is left of the loop.
-/

namespace PiKernel.Vm

open PiKernel.Conc
open PiKernel.Conc.Prog (perform)

/-! ## The condition -/

/-- The size of the image after a segment. -/
def grown (sz : Nat) (ph : Phdr) : Nat := max sz (ph.p_vaddr + ph.p_memsz)

/-- `execve` gets the memory for a segment. -/
structure Allocated (ph : Phdr) (sz free : Nat) : Prop where
  file : ph.p_filesz ≤ ph.p_memsz
  address : ph.p_vaddr + ph.p_memsz < UADDR_SZ
  some : 0 < grown sz ph
  enough : need (pages (grown sz ph)) - need (pages sz) ≤ free

/--
No segment which `execve` gets the memory for makes `uvm_load` panic.  `rest` is what
must hold of the size and the free pages after the last segment.
-/
def SegmentsHarmless (ip : Fs.File) (rest : Nat → Nat → Prop) :
    List (Option Phdr) → Nat → Nat → Prop
  | [], sz, free => rest sz free
  | none :: _, _, _ => True
  | some ph :: headers, sz, free =>
      if ph.p_type ≠ PT_LOAD then
        SegmentsHarmless ip rest headers sz free
      else
        Allocated ph sz free →
          (ph.p_vaddr % PGSIZE = ph.p_offset % PGSIZE ∧
            Reachable (pages (grown sz ph)) ph.p_vaddr) ∧
          (ph.p_offset + ph.p_filesz ≤ ip.size.toNat →
            SegmentsHarmless ip rest headers (grown sz ph)
              (free - (need (pages (grown sz ph)) - need (pages sz))))

/-- All segments are loaded, and `rest` holds of the size and the free pages after that. -/
def SegmentsLoad (ip : Fs.File) (rest : Nat → Nat → Prop) :
    List (Option Phdr) → Nat → Nat → Prop
  | [], sz, free => rest sz free
  | none :: _, _, _ => False
  | some ph :: headers, sz, free =>
      if ph.p_type ≠ PT_LOAD then
        SegmentsLoad ip rest headers sz free
      else
        Allocated ph sz free ∧
          (ph.p_vaddr % PGSIZE = ph.p_offset % PGSIZE ∧
            Reachable (pages (grown sz ph)) ph.p_vaddr) ∧
          ph.p_offset + ph.p_filesz ≤ ip.size.toNat ∧
          SegmentsLoad ip rest headers (grown sz ph)
            (free - (need (pages (grown sz ph)) - need (pages sz)))

theorem SegmentsLoad.harmless {ip : Fs.File} {rest rest' : Nat → Nat → Prop}
    (implies : ∀ sz free, rest sz free → rest' sz free) {headers : List (Option Phdr)}
    {sz free : Nat} (load : SegmentsLoad ip rest headers sz free) :
    SegmentsHarmless ip rest' headers sz free := by
  induction headers generalizing sz free with
  | nil => exact implies sz free load
  | cons header headers ih =>
      cases header with
      | none => exact trivial
      | some ph =>
          rw [SegmentsLoad] at load
          rw [SegmentsHarmless]
          split at load
          · rw [if_pos ‹_›]
            exact ih load
          · rw [if_neg ‹_›]
            exact fun _ => ⟨load.2.1, fun _ => ih load.2.2.2⟩

section Segment

variable
    {ip : Fs.File}
    {rest : Nat → Nat → Prop}
    {ph : Phdr}
    {headers : List (Option Phdr)}
    {sz free : Nat}

/-- Without the memory nothing is asked of a segment, and it is not loaded. -/
theorem SegmentsHarmless.of_missing (kind : ph.p_type = PT_LOAD)
    (missing : ¬ Allocated ph sz free) :
    SegmentsHarmless ip rest (some ph :: headers) sz free := by
  rw [SegmentsHarmless, if_neg (not_not.mpr kind)]
  intro got
  exact absurd got missing

theorem SegmentsLoad.allocated (kind : ph.p_type = PT_LOAD)
    (load : SegmentsLoad ip rest (some ph :: headers) sz free) : Allocated ph sz free := by
  rw [SegmentsLoad, if_neg (not_not.mpr kind)] at load
  exact load.1

/-- A segment that goes beyond the end of the file is harmless, and is not loaded. -/
theorem SegmentsHarmless.of_cut (kind : ph.p_type = PT_LOAD)
    (fits : ph.p_vaddr % PGSIZE = ph.p_offset % PGSIZE ∧
      Reachable (pages (grown sz ph)) ph.p_vaddr)
    (cut : ¬ ph.p_offset + ph.p_filesz ≤ ip.size.toNat) :
    SegmentsHarmless ip rest (some ph :: headers) sz free := by
  rw [SegmentsHarmless, if_neg (not_not.mpr kind)]
  exact fun _ => ⟨fits, fun whole => absurd whole cut⟩

theorem SegmentsLoad.whole (kind : ph.p_type = PT_LOAD)
    (load : SegmentsLoad ip rest (some ph :: headers) sz free) :
    ph.p_offset + ph.p_filesz ≤ ip.size.toNat := by
  rw [SegmentsLoad, if_neg (not_not.mpr kind)] at load
  exact load.2.2.1

theorem SegmentsHarmless.fits (kind : ph.p_type = PT_LOAD) (allocated : Allocated ph sz free)
    (harmless : SegmentsHarmless ip rest (some ph :: headers) sz free) :
    ph.p_vaddr % PGSIZE = ph.p_offset % PGSIZE ∧
      Reachable (pages (grown sz ph)) ph.p_vaddr := by
  rw [SegmentsHarmless, if_neg (not_not.mpr kind)] at harmless
  exact (harmless allocated).1

/-- After a segment that is loaded, the conditions are those of the other segments. -/
theorem segmentsHarmless_loaded (kind : ph.p_type = PT_LOAD) (allocated : Allocated ph sz free)
    (fits : ph.p_vaddr % PGSIZE = ph.p_offset % PGSIZE ∧
      Reachable (pages (grown sz ph)) ph.p_vaddr)
    (whole : ph.p_offset + ph.p_filesz ≤ ip.size.toNat) :
    SegmentsHarmless ip rest (some ph :: headers) sz free ↔
      SegmentsHarmless ip rest headers (grown sz ph)
        (free - (need (pages (grown sz ph)) - need (pages sz))) := by
  rw [SegmentsHarmless, if_neg (not_not.mpr kind)]
  constructor
  · intro harmless
    exact (harmless allocated).2 whole
  · intro harmless _
    exact ⟨fits, fun _ => harmless⟩

theorem segmentsLoad_loaded (kind : ph.p_type = PT_LOAD) (allocated : Allocated ph sz free)
    (fits : ph.p_vaddr % PGSIZE = ph.p_offset % PGSIZE ∧
      Reachable (pages (grown sz ph)) ph.p_vaddr)
    (whole : ph.p_offset + ph.p_filesz ≤ ip.size.toNat) :
    SegmentsLoad ip rest (some ph :: headers) sz free ↔
      SegmentsLoad ip rest headers (grown sz ph)
        (free - (need (pages (grown sz ph)) - need (pages sz))) := by
  rw [SegmentsLoad, if_neg (not_not.mpr kind)]
  constructor
  · exact fun all => all.2.2.2
  · exact fun rest => ⟨allocated, fits, whole, rest⟩

end Segment

/-- The address of a string below `sp`. -/
def below (sp : Nat) (arg : List UInt8) : Nat := align (sp - (arg.length + 1))

/-- No string, pushed while the ones before it fit over `base`, is longer than `sp`. -/
def ArgumentsHarmless (base : Nat) : List (List UInt8) → Nat → Nat → Prop
  | [], _, _ => True
  | arg :: argv, count, sp =>
      count < MAXARG →
        arg.length + 1 ≤ sp ∧
          (base ≤ below sp arg → ArgumentsHarmless base argv (count + 1) (below sp arg))

/-- The arguments are harmless, if there is memory for the stack. -/
def StackHarmless (argv : List (List UInt8)) (sz free : Nat) : Prop :=
  (pages sz + 2) * PGSIZE < UADDR_SZ → need (pages sz + 2) - need (pages sz) ≤ free →
    ArgumentsHarmless ((pages sz + 1) * PGSIZE) argv 0 ((pages sz + 2) * PGSIZE)

/-- `execve` of the file with the strings is harmless where so many pages are free. -/
def Harmless (file : Option Fs.File) (argv : List (List UInt8)) (free : Nat) : Prop :=
  ∀ ip, file = some ip → ∀ bytes, readExactly ip 0 ehdrSize = some bytes →
    bytes.take 4 = ELFMAG →
      0 < free ∧
        SegmentsHarmless ip (StackHarmless argv)
          (programHeaders ip (Ehdr.decode bytes).e_phnum (toInt (Ehdr.decode bytes).e_phoff))
          0 (free - 1)

/-! ## Segments -/

variable {kernelEnd : Nat} {Pid : Type} {R : Rules kernelEnd Pid}
  {h h' : Heap kernelEnd} {roots : Set (Nat × Nat)} {pgdir sz cost : Nat}
  {ip : Fs.File} {argv : List (List UInt8)} {rest rest' : Nat → Nat → Prop} {P Q : Prop}

/-- It holds, if the number of free pages is known. -/
def Known (h : Heap kernelEnd) (P : Prop) : Prop := ∀ free, h.supply = some free → P

theorem Known.back (known : Known h' P) (spent : Spent h h' cost) : Known h P := by
  intro free supply
  apply known (free - cost)
  rw [spent.1, supply]
  rfl

theorem Spent.of_eq (same : h'.supply = h.supply) : Spent h h' 0 := by
  constructor
  · rw [same]
    cases h.supply <;> rfl
  · intro n _
    exact Nat.zero_le n

theorem pages_le {sz : Nat} : sz ≤ pages sz * PGSIZE := by
  simp only [pages, PGSIZE]
  omega

/-- `execve` gets the memory for a segment exactly if `Allocated` says so. -/
theorem uvmAlloc_segment {post : Nat → Heap kernelEnd → Prop} {ph : Phdr}
    (noZero : 0 < kernelEnd) (keeps : h.Keeps roots) (more : R.live ⊆ roots)
    (tree : (pgdir, 4) ∈ roots) (span : Span h pgdir (pages sz) fun _ => true)
    (file : ph.p_filesz ≤ ph.p_memsz)
    (refused : ∀ h', h'.Keeps roots →
      (∀ free, h.supply = some free → ¬ Allocated ph sz free) → post 0 h')
    (done : ∀ h', 0 < grown sz ph → ph.p_vaddr + ph.p_memsz < UADDR_SZ →
      (∀ free, h.supply = some free → Allocated ph sz free) → h'.Keeps roots →
      Spent h h' (need (pages (grown sz ph)) - need (pages sz)) →
      Span h' pgdir (pages (grown sz ph)) (fun _ => true) → post (grown sz ph) h') :
    R.wp (uvmAlloc kernelEnd pgdir sz (ph.p_vaddr + ph.p_memsz)) h post := by
  apply uvmAlloc_span noZero keeps more tree span
  · intro large
    apply refused h keeps
    intro free _ got
    exact absurd got.address (Nat.not_lt_of_le large)
  · intro address smaller
    have same : grown sz ph = sz := max_eq_left smaller.le
    have cost : need (pages (grown sz ph)) - need (pages sz) = 0 := by rw [same, Nat.sub_self]
    have positive : 0 < grown sz ph := by omega
    have result := done h positive address
      (fun free _ => ⟨file, address, positive, cost ▸ Nat.zero_le free⟩) keeps
      (cost ▸ Spent.refl) (by rwa [same])
    rwa [same] at result
  · intro h' _ larger keeps' short
    have same : grown sz ph = ph.p_vaddr + ph.p_memsz := max_eq_right larger
    apply refused h' keeps'
    intro free supply got
    have enough := got.enough
    have missing := short free supply
    rw [same] at enough
    omega
  · intro h' address larger keeps' spent span'
    have same : grown sz ph = ph.p_vaddr + ph.p_memsz := max_eq_right larger
    rw [← same] at spent span' ⊢
    by_cases nothing : grown sz ph = 0
    · rw [nothing]
      apply refused h' keeps'
      intro free _ got
      exact absurd nothing got.some.ne'
    · have positive : 0 < grown sz ph := Nat.pos_of_ne_zero nothing
      exact done h' positive address
        (fun free supply => ⟨file, address, positive, spent.2 free supply⟩) keeps' spent span'

theorem loadSegments_spec {post : Option Nat → Heap kernelEnd → Prop}
    {headers : List (Option Phdr)} (noZero : 0 < kernelEnd) (keeps : h.Keeps roots)
    (more : R.live ⊆ roots) (tree : (pgdir, 4) ∈ roots)
    (span : Span h pgdir (pages sz) fun _ => true) (low : sz < UADDR_SZ)
    (meaning : ∀ free, h.supply = some free →
      (P ↔ SegmentsHarmless ip rest headers sz free))
    (loads : ∀ free, h.supply = some free → (Q ↔ SegmentsLoad ip rest' headers sz free))
    (panics : Known h (¬ P) → ∀ message, R.mayPanic message)
    (fail : ∀ h', h'.Keeps roots → Known h P → Known h (¬ Q) → post none h')
    (done : ∀ h' sz' cost, sz' < UADDR_SZ → h'.Keeps roots →
      Span h' pgdir (pages sz') (fun _ => true) → Spent h h' cost →
      (∀ free, h'.supply = some free → (P ↔ rest sz' free)) →
      (∀ free, h'.supply = some free → (Q ↔ rest' sz' free)) → post (some sz') h') :
    R.wp (loadSegments kernelEnd pgdir ip headers sz) h post := by
  induction headers generalizing h sz with
  | nil => exact R.ret (done h sz 0 low keeps span Spent.refl meaning loads)
  | cons header headers ih =>
      cases header with
      | none =>
          apply R.ret
          apply fail h keeps
          · intro free supply
            exact (meaning free supply).mpr trivial
          · exact fun free supply => (loads free supply).mp
      | some ph =>
          rw [loadSegments]
          by_cases kind : ph.p_type = PT_LOAD
          · rw [if_neg (not_not.mpr kind)]
            have refused : ∀ h', h'.Keeps roots →
                (∀ free, h.supply = some free → ¬ Allocated ph sz free) → post none h' := by
              intro h' keeps' missing
              apply fail h' keeps'
              · intro free supply
                exact (meaning free supply).mpr (.of_missing kind (missing free supply))
              · intro free supply holds
                exact missing free supply (((loads free supply).mp holds).allocated kind)
            by_cases file : ph.p_memsz < ph.p_filesz
            · rw [if_pos file]
              exact R.ret (refused h keeps fun free _ got =>
                absurd got.file (Nat.not_le_of_lt file))
            rw [if_neg file]
            by_cases overflow : 2 ^ 64 ≤ ph.p_vaddr + ph.p_memsz
            · rw [if_pos overflow]
              exact R.ret (refused h keeps fun free _ got => by
                have := got.address
                simp only [UADDR_SZ] at this
                omega)
            rw [if_neg overflow]
            apply R.bind
            apply uvmAlloc_segment noZero keeps more tree span (Nat.le_of_not_lt file)
            · intro h' keeps' missing
              exact R.ret (refused h' keeps' missing)
            intro h' positive address allocated keeps' spent span'
            have low' : grown sz ph < UADDR_SZ := max_lt low address
            have covered : ph.p_vaddr + ph.p_filesz ≤ pages (grown sz ph) * PGSIZE := by
              have reach : grown sz ph ≤ pages (grown sz ph) * PGSIZE := pages_le
              have inside : ph.p_vaddr + ph.p_memsz ≤ grown sz ph := le_max_right _ _
              omega
            rw [if_neg positive.ne']
            apply R.bind
            apply uvmLoad_span keeps' more tree span' (pages_lt low') covered
            · intro wrong
              apply panics
              intro free supply holds
              exact wrong (((meaning free supply).mp holds).fits kind (allocated free supply))
            intro h'' aligned reachable keeps'' supply' span''
            have spent' : Spent h h'' _ := spent.trans (Spent.of_eq supply')
            by_cases whole : ph.p_offset + ph.p_filesz ≤ ip.size.toNat
            · rw [decide_eq_true whole]
              apply ih keeps'' span'' low'
              · intro free supply
                rw [supply', spent.1, Option.map_eq_some_iff] at supply
                rcases supply with ⟨before, supply, rfl⟩
                rw [meaning before supply, segmentsHarmless_loaded kind
                  (allocated before supply) ⟨aligned, reachable⟩ whole]
              · intro free supply
                rw [supply', spent.1, Option.map_eq_some_iff] at supply
                rcases supply with ⟨before, supply, rfl⟩
                rw [loads before supply, segmentsLoad_loaded kind
                  (allocated before supply) ⟨aligned, reachable⟩ whole]
              · exact fun known => panics (known.back spent')
              · exact fun h₃ keeps₃ known not =>
                  fail h₃ keeps₃ (known.back spent') (not.back spent')
              · intro h₃ sz' cost low₃ keeps₃ span₃ spent₃
                exact done h₃ sz' _ low₃ keeps₃ span₃ (spent'.trans spent₃)
            · rw [decide_eq_false whole]
              apply R.ret
              apply fail h'' keeps''
              · intro free supply
                exact (meaning free supply).mpr (.of_cut kind ⟨aligned, reachable⟩ whole)
              · intro free supply holds
                exact whole (((loads free supply).mp holds).whole kind)
          · rw [if_pos kind]
            simp only [SegmentsHarmless, SegmentsLoad, ne_eq, kind, not_false_eq_true, if_true]
              at meaning loads
            exact ih keeps span low meaning loads panics fail done

end PiKernel.Vm
