import PiKernel.Vm.Contents
import PiKernel.Vm.Decode

/-!
# The segments of an executable file

What an image holds once `execve` has loaded it: the bytes of the file in the segments, and
zeros elsewhere.  `uvm_load` copies page by page, and `uvm_alloc` adds zeroed pages from the
end of the image so far; the contents after each of them are one function of those before.
-/

namespace PiKernel.Vm

open PiKernel.Bytes
open PiKernel.Conc
open PiKernel.Conc.Prog (perform)

variable {kernelEnd : Nat} {Pid : Type}

/-! ## Pieces of the file -/

section Pieces

variable {ip : Fs.File} {content : Nat → UInt8} {addr offset n m : Nat} {bytes : List UInt8}

/-- The contents with `n` bytes of the file at an address. -/
def placed (ip : Fs.File) (content : Nat → UInt8) (addr offset n : Nat) : Nat → UInt8 :=
  fun va => if addr ≤ va ∧ va < addr + n then ip.data (offset + (va - addr)) else content va

theorem placed_nothing : placed ip content addr offset 0 = content := by
  funext va
  rw [placed, if_neg]
  omega

theorem placed_placed :
    placed ip (placed ip content addr offset n) (addr + n) (offset + n) m =
      placed ip content addr offset (n + m) := by
  funext va
  rw [placed, placed, placed]
  by_cases first : addr ≤ va ∧ va < addr + n
  · rw [if_neg (by omega), if_pos first, if_pos (by omega)]
  · by_cases second : addr + n ≤ va ∧ va < addr + n + m
    · have same : offset + n + (va - (addr + n)) = offset + (va - addr) := by omega
      rw [if_pos second, if_pos (by omega), same]
    · rw [if_neg second, if_neg first, if_neg (by omega)]

theorem slice_length : (ip.slice offset n).length = n := by
  rw [Fs.File.slice, List.length_map, List.length_range]

theorem patched_slice : patched content addr (ip.slice offset n) =
    placed ip content addr offset n := by
  funext va
  rw [patched, placed, slice_length]
  by_cases inside : addr ≤ va ∧ va < addr + n
  · have below : va - addr < (ip.slice offset n).length := by
      rw [slice_length]
      omega
    rw [if_pos inside, if_pos inside, List.getD_eq_getElem _ _ below]
    simp [Fs.File.slice]
  · rw [if_neg inside, if_neg inside]

/-- A whole piece is a slice of the file. -/
theorem readi_slice (read : readi ip offset n = some bytes) (whole : bytes.length = n) :
    bytes = ip.slice offset n ∧ (0 < n → offset + n ≤ ip.size.toNat) := by
  have size := readi_length read
  rw [readi, Option.map_eq_some_iff] at read
  rcases read with ⟨count, _, same⟩
  have equal : count = n := by
    rw [← whole, ← same, slice_length]
  refine ⟨by rw [← same, equal], fun some => ?_⟩
  omega

end Pieces

/-! ## `uvm_load` -/

section Load

variable {R : Rules kernelEnd Pid} {h : Heap kernelEnd} {roots : Set (Nat × Nat)}
  {pgdir k n t i fuel off addr offset sz : Nat} {page : Page} {bytes : List UInt8}
  {content : Nat → UInt8} {ip : Fs.File}

/-- The page at `n` is written through its entry. -/
theorem write_contents {post : Unit → Heap kernelEnd → Prop} (keeps : h.Keeps roots)
    (more : R.live ⊆ roots) (tree : (pgdir, 4) ∈ roots) (contiguous : Contiguous h pgdir k)
    (holds : Holds h pgdir k content) (bound : k ≤ PAGES)
    (found : h.links.follow pgdir (walkPath (n * PGSIZE) 3 0) = some t)
    (here : h.page t = some page) (inside : bytes ≠ [] → n < k)
    (fits : off + bytes.length ≤ PGSIZE)
    (next : ∀ h', h'.Keeps roots → Contiguous h' pgdir k →
      Holds h' pgdir k (patched content (n * PGSIZE + off) bytes) → post () h') :
    R.wp (perform (.write (pageOf (word page (n % ENTRYSZ))) off bytes)) h post := by
  by_cases nothing : bytes = []
  · subst nothing
    rw [patched_nil] at next
    exact R.writeNothing (next h keeps contiguous holds)
  · have below := inside nothing
    have low : n < PAGES := lt_of_lt_of_le below bound
    rcases Option.isSome_iff_exists.mp ((contiguous n low).mpr below) with ⟨y, mapped⟩
    have linked : children page (n % ENTRYSZ) = some y := by
      rw [Heap.mapped, leafPath, Links.follow_snoc found, Heap.links_of_page here] at mapped
      exact mapped
    rw [(children_eq_some linked).2]
    rcases Heap.mem_owned.mp (Forest.mem keeps pgdir 4 tree _ y leafPath_length.le mapped) with
      ⟨contents, owned⟩
    have ordered : (h.put y (splice contents off bytes) (Heap.usable_of_page owned)).Keeps roots :=
      keeps.rewrite_leaf tree leafPath_length mapped
    refine R.write owned (ordered.mono more) (next _ ordered ?_ ?_)
    · intro m far
      rw [mapped_put keeps tree mapped]
      exact contiguous m far
    · exact holds.put keeps tree mapped owned _ low bound fits

/-- One piece of the file is read into the page at an address. -/
theorem piece_contents {post : Bool → Heap kernelEnd → Prop} {message : String}
    {rest : Prog (Act Pid) Bool} {va start count : Nat}
    (allowed : ∀ message, R.mayPanic message) (keeps : h.Keeps roots) (more : R.live ⊆ roots)
    (tree : (pgdir, 4) ∈ roots) (contiguous : Contiguous h pgdir k)
    (holds : Holds h pgdir k content) (bound : k ≤ PAGES) (fits : start + count ≤ PGSIZE)
    (inside : 0 < count → va / PGSIZE < k) (fail : ∀ h', post false h')
    (next : ∀ h', h'.Keeps roots → Contiguous h' pgdir k →
      Holds h' pgdir k (placed ip content (va / PGSIZE * PGSIZE + start) off count) →
      (0 < count → off + count ≤ ip.size.toNat) → R.wp rest h' post) :
    R.wp (do
      match ← pgdirWalk pgdir va false with
      | none => .panic message
      | some (table, j) =>
          let pte ← perform (.word table j)
          match readi ip off count with
          | none => return false
          | some bytes =>
              perform (.write (pageOf pte) start bytes)
              if bytes.length ≠ count then
                return false
              else
                rest) h post := by
  apply R.bind
  apply pgdirWalk_find keeps tree
  cases found : h.links.follow pgdir (walkPath va 3 0) with
  | none => exact R.panic (allowed _)
  | some t =>
      rcases Heap.mem_owned.mp (Forest.mem keeps pgdir 4 tree _ t
        (by rw [walkPath_length]; decide) found) with ⟨page, here⟩
      rw [← walkPath_number] at found
      apply R.bind
      apply R.word here
      cases read : readi ip off count with
      | none => exact R.ret (fail h)
      | some bytes =>
          have length := (readi_length read).2
          apply R.bind
          apply write_contents keeps more tree contiguous holds bound found here
          · intro some
            have positive := List.length_pos_iff.mpr some
            exact inside (by omega)
          · omega
          · intro h' keeps' contiguous' holds'
            by_cases partly : bytes.length ≠ count
            · rw [if_pos partly]
              exact R.ret (fail h')
            · rw [if_neg partly]
              have slice := readi_slice read (not_not.mp partly)
              rw [slice.1, patched_slice] at holds'
              exact next h' keeps' contiguous' holds' slice.2

theorem uvmLoadLoop_contents {post : Bool → Heap kernelEnd → Prop}
    (allowed : ∀ message, R.mayPanic message) (keeps : h.Keeps roots) (more : R.live ⊆ roots)
    (tree : (pgdir, 4) ∈ roots) (contiguous : Contiguous h pgdir k)
    (holds : Holds h pgdir k content) (bound : k ≤ PAGES)
    (covered : addr + sz ≤ k * PGSIZE) (aligned : i < sz → (addr + i) % PGSIZE = 0)
    (enough : sz ≤ i + fuel * PGSIZE) (fail : ∀ h', post false h')
    (done : ∀ h', h'.Keeps roots → Contiguous h' pgdir k →
      Holds h' pgdir k (placed ip content (addr + i) (offset + i) (sz - i)) →
      (i < sz → offset + sz ≤ ip.size.toNat) → post true h') :
    R.wp (uvmLoadLoop pgdir addr ip offset sz fuel i) h post := by
  induction fuel generalizing h i content with
  | zero =>
      have nothing : sz - i = 0 := by omega
      rw [nothing, placed_nothing] at done
      exact R.ret (done h keeps contiguous holds fun below => by omega)
  | succ fuel ih =>
      rw [uvmLoadLoop]
      by_cases below : i < sz
      · rw [if_pos below]
        have start := aligned below
        have positive : 0 < PGSIZE := by decide
        have number : (addr + i) / PGSIZE * PGSIZE + 0 = addr + i := by
          rw [Nat.add_zero, Nat.div_mul_cancel (Nat.dvd_of_mod_eq_zero start)]
        apply piece_contents allowed keeps more tree contiguous holds bound
        · omega
        · exact fun _ => (Nat.div_lt_iff_lt_mul positive).mpr (by omega)
        · exact fail
        · intro h' keeps' contiguous' holds' whole
          rw [number] at holds'
          apply ih keeps' contiguous' holds'
          · intro further
            rw [← Nat.add_assoc, Nat.add_mod_right]
            exact start
          · rw [Nat.add_assoc, Nat.add_comm PGSIZE, ← Nat.succ_mul]
            exact enough
          · intro h'' keeps'' contiguous'' holds'' whole'
            -- The piece is a page, or the last one.
            have joined : placed ip (placed ip content (addr + i) (offset + i)
                (min (sz - i) PGSIZE)) (addr + (i + PGSIZE)) (offset + (i + PGSIZE))
                (sz - (i + PGSIZE)) = placed ip content (addr + i) (offset + i) (sz - i) := by
              by_cases last : sz - i ≤ PGSIZE
              · have nothing : sz - (i + PGSIZE) = 0 := by omega
                rw [nothing, placed_nothing, Nat.min_eq_left last]
              · have rest : PGSIZE + (sz - (i + PGSIZE)) = sz - i := by omega
                rw [Nat.min_eq_right (by omega), ← Nat.add_assoc, ← Nat.add_assoc,
                  placed_placed, rest]
            rw [joined] at holds''
            refine done h'' keeps'' contiguous'' holds'' fun _ => ?_
            by_cases further : i + PGSIZE < sz
            · exact whole' further
            · have := whole (by omega)
              omega
      · rw [if_neg below]
        have nothing : sz - i = 0 := by omega
        rw [nothing, placed_nothing] at done
        exact R.ret (done h keeps contiguous holds fun below => by omega)

theorem uvmLoad_contents {post : Bool → Heap kernelEnd → Prop}
    (allowed : ∀ message, R.mayPanic message) (keeps : h.Keeps roots) (more : R.live ⊆ roots)
    (tree : (pgdir, 4) ∈ roots) (contiguous : Contiguous h pgdir k)
    (holds : Holds h pgdir k content) (bound : k ≤ PAGES)
    (covered : addr + sz ≤ k * PGSIZE) (fail : ∀ h', post false h')
    (done : ∀ h', h'.Keeps roots → Contiguous h' pgdir k →
      Holds h' pgdir k (placed ip content addr offset sz) →
      (0 < sz → offset + sz ≤ ip.size.toNat) → post true h') :
    R.wp (uvmLoad pgdir addr ip offset sz) h post := by
  rw [uvmLoad]
  by_cases aligned : addr % PGSIZE ≠ offset % PGSIZE
  · rw [if_pos aligned]
    exact R.panic (allowed _)
  · rw [if_neg aligned]
    have positive : 0 < PGSIZE := by decide
    have within : addr % PGSIZE < PGSIZE := Nat.mod_lt _ positive
    have number : ROUNDDOWN addr PGSIZE / PGSIZE * PGSIZE + addr % PGSIZE = addr := by
      simp only [ROUNDDOWN, PGSIZE]
      omega
    apply piece_contents allowed keeps more tree contiguous holds bound
    · omega
    · intro some
      have below : ROUNDDOWN addr PGSIZE / PGSIZE * PGSIZE < k * PGSIZE := by omega
      exact lt_of_mul_lt_mul_right below (Nat.zero_le _)
    · exact fail
    · intro h' keeps' contiguous' holds' whole
      rw [number] at holds'
      apply uvmLoadLoop_contents allowed keeps' more tree contiguous' holds' bound
      · omega
      · intro further
        simp only [PGSIZE] at further ⊢
        omega
      · simp only [PGSIZE]
        omega
      · exact fail
      · intro h'' keeps'' contiguous'' holds'' whole'
        rw [Nat.sub_zero, Nat.add_zero, Nat.add_zero, placed_placed,
          Nat.add_sub_of_le (Nat.min_le_left _ _)] at holds''
        apply done h'' keeps'' contiguous'' holds''
        intro some
        by_cases further : 0 < sz - min sz (PGSIZE - addr % PGSIZE)
        · have := whole' further
          omega
        · have := whole (by omega)
          omega

end Load

/-! ## All segments -/

/-- The contents after the segments have been loaded one after the other. -/
@[simp] def image (ip : Fs.File) : List (Option Phdr) → (Nat → UInt8) → Nat → UInt8
  | [], content => content
  | none :: _, content => content
  | some ph :: headers, content =>
      if ph.p_type ≠ PT_LOAD then
        image ip headers content
      else
        image ip headers (placed ip content ph.p_vaddr ph.p_offset ph.p_filesz)

/-- A header that has been read, and whose segment lies in the file and below `sz`. -/
def Fits (ip : Fs.File) (sz : Nat) (header : Option Phdr) : Prop :=
  ∃ ph, header = some ph ∧ (ph.p_type = PT_LOAD → ph.p_filesz ≤ ph.p_memsz ∧
    (0 < ph.p_filesz → ph.p_offset + ph.p_filesz ≤ ip.size.toNat) ∧
    ph.p_vaddr + ph.p_memsz ≤ sz)

section Segments

variable {R : Rules kernelEnd Pid} {h : Heap kernelEnd} {roots : Set (Nat × Nat)}
  {pgdir sz : Nat} {content : Nat → UInt8} {ip : Fs.File} {headers : List (Option Phdr)}

theorem loadSegments_contents {post : Option Nat → Heap kernelEnd → Prop}
    (noZero : 0 < kernelEnd) (allowed : ∀ message, R.mayPanic message) (keeps : h.Keeps roots)
    (more : R.live ⊆ roots) (tree : (pgdir, 4) ∈ roots)
    (contiguous : Contiguous h pgdir (pages sz)) (holds : Holds h pgdir (pages sz) content)
    (zero : ∀ va, pages sz * PGSIZE ≤ va → content va = 0) (low : sz < UADDR_SZ)
    (fail : ∀ h', post none h')
    (done : ∀ h' sz', sz ≤ sz' → (∀ header ∈ headers, Fits ip sz' header) → h'.Keeps roots →
      Contiguous h' pgdir (pages sz') → Holds h' pgdir (pages sz') (image ip headers content) →
      post (some sz') h') :
    R.wp (loadSegments kernelEnd pgdir ip headers sz) h post := by
  induction headers generalizing h sz content with
  | nil =>
      exact R.ret (done h sz le_rfl (fun _ member => by cases member) keeps contiguous holds)
  | cons header headers ih =>
      cases header with
      | none => exact R.ret (fail h)
      | some ph =>
          rw [loadSegments]
          by_cases kind : ph.p_type ≠ PT_LOAD
          · rw [if_pos kind]
            simp only [image, if_pos kind] at done
            apply ih keeps contiguous holds zero low
            intro h' sz' larger fits
            refine done h' sz' larger ?_
            intro header member
            rcases List.mem_cons.mp member with rfl | member
            · exact ⟨ph, rfl, fun load => absurd load kind⟩
            · exact fits header member
          · rw [if_neg kind]
            simp only [image, if_neg kind] at done
            by_cases file : ph.p_memsz < ph.p_filesz
            · rw [if_pos file]
              exact R.ret (fail h)
            · rw [if_neg file]
              by_cases overflow : 2 ^ 64 ≤ ph.p_vaddr + ph.p_memsz
              · rw [if_pos overflow]
                exact R.ret (fail h)
              · rw [if_neg overflow]
                -- What follows once the memory is there.
                have load : ∀ (h' : Heap kernelEnd) sz₁, sz ≤ sz₁ →
                    ph.p_vaddr + ph.p_memsz ≤ sz₁ → sz₁ < UADDR_SZ → h'.Keeps roots →
                    Contiguous h' pgdir (pages sz₁) → Holds h' pgdir (pages sz₁) content →
                    R.wp (do
                      if sz₁ = 0 then
                        return none
                      else if ← uvmLoad pgdir ph.p_vaddr ip ph.p_offset ph.p_filesz then
                        loadSegments kernelEnd pgdir ip headers sz₁
                      else
                        return none) h' post := by
                  intro h' sz₁ larger inside low₁ keeps' contiguous' holds'
                  have reach : sz₁ ≤ pages sz₁ * PGSIZE := pages_le
                  have fewer : pages sz * PGSIZE ≤ pages sz₁ * PGSIZE :=
                    Nat.mul_le_mul_right _ (Nat.div_le_div_right (by omega))
                  have small := pages_lt low₁
                  by_cases nothing : sz₁ = 0
                  · rw [if_pos nothing]
                    exact R.ret (fail h')
                  · rw [if_neg nothing]
                    apply R.bind
                    apply uvmLoad_contents allowed keeps' more tree contiguous' holds'
                    · simp only [PAGES]
                      omega
                    · omega
                    · exact fun h'' => R.ret (fail h'')
                    · intro h'' keeps'' contiguous'' holds'' whole
                      apply ih keeps'' contiguous'' holds''
                      · intro va above
                        rw [placed, if_neg (by omega)]
                        exact zero va (by omega)
                      · exact low₁
                      · intro h₂ sz₂ larger₂ fits
                        refine done h₂ sz₂ (by omega) ?_
                        intro header member
                        rcases List.mem_cons.mp member with rfl | member
                        · exact ⟨ph, rfl, fun _ => ⟨by omega, whole, by omega⟩⟩
                        · exact fits header member
                apply R.bind
                apply uvmAlloc_map noZero keeps more tree contiguous
                · exact fun _ => R.ret (fail h)
                · exact fun _ less => load h sz le_rfl less.le low keeps contiguous holds
                · exact fun h' _ _ _ => R.ret (fail h')
                · intro h' small larger keeps' grown
                  have bound := pages_lt small
                  apply load h' _ larger le_rfl small keeps' grown.exactly
                  apply holds.grown grown _ zero
                  simp only [PAGES]
                  omega

/-! ### Disjoint segments -/

/-- The bytes of the segment that come from the file. -/
def Phdr.FromFile (ph : Phdr) (va : Nat) : Prop :=
  ph.p_type = PT_LOAD ∧ ph.p_vaddr ≤ va ∧ va < ph.p_vaddr + ph.p_filesz

variable {va : Nat}

theorem image_other
    (outside : ∀ ph, some ph ∈ headers → ¬ ph.FromFile va) : image ip headers content va =
      content va := by
  induction headers generalizing content with
  | nil => rfl
  | cons header headers ih =>
      cases header with
      | none => rfl
      | some ph =>
          have rest : ∀ content, image ip headers content va = content va := fun content =>
            ih fun ph' member => outside ph' (List.mem_cons_of_mem _ member)
          rw [image]
          split
          · exact rest content
          · rename_i kind
            rw [rest, placed, if_neg]
            exact fun inside => outside ph (List.mem_cons_self ..) ⟨not_not.mp kind, inside⟩

theorem image_append {headers' : List (Option Phdr)}
    (read : ∀ header ∈ headers, header.isSome) :
    image ip (headers ++ headers') content = image ip headers' (image ip headers content) := by
  induction headers generalizing content with
  | nil => rfl
  | cons header headers ih =>
      have rest : ∀ content, image ip (headers ++ headers') content =
          image ip headers' (image ip headers content) := fun content =>
        ih fun header' member => read header' (List.mem_cons_of_mem _ member)
      cases header with
      | none => exact absurd (read none (List.mem_cons_self ..)) (by decide)
      | some ph =>
          rw [List.cons_append, image, image]
          split <;> exact rest _

/-- A byte of the file, if no other segment covers it. -/
theorem image_at {i : Nat} {ph : Phdr} (read : ∀ header ∈ headers, header.isSome)
    (here : headers[i]? = some (some ph)) (inside : ph.FromFile va)
    (alone : ∀ (j : Nat) ph', headers[j]? = some (some ph') → ph'.FromFile va → j = i) :
    image ip headers content va = ip.data (ph.p_offset + (va - ph.p_vaddr)) := by
  rcases List.getElem?_eq_some_iff.mp here with ⟨below, at'⟩
  have split : headers = headers.take i ++ some ph :: headers.drop (i + 1) := by
    rw [← at', List.getElem_cons_drop, List.take_append_drop]
  rw [split, image_append fun header member => read header (List.mem_of_mem_take member), image,
    if_neg (not_not.mpr inside.1), image_other, placed, if_pos inside.2]
  intro ph' member covered
  rcases List.mem_iff_getElem?.mp member with ⟨j, found⟩
  rw [List.getElem?_drop] at found
  have same := alone _ ph' found covered
  omega

end Segments

/-! ## The program headers -/

section Headers

variable {ip : Fs.File} {elf : Ehdr} {n off i : Nat} {ph : Phdr}

/-- The segment `i` of the file: the offsets of `execve` in the table are of type `int`. -/
def Segment (ip : Fs.File) (elf : Ehdr) (i : Nat) (ph : Phdr) : Prop :=
  i < elf.e_phnum ∧
    (readExactly ip (toInt (elf.e_phoff + phdrSize * i)) phdrSize).map Phdr.decode = some ph ∧
    ph.p_type = PT_LOAD

theorem toInt_congr {a b : Nat} (same : a % 2 ^ 32 = b % 2 ^ 32) : toInt a = toInt b := by
  rw [toInt, toInt, same]

theorem toInt_add : toInt (toInt off + n) = toInt (off + n) := by
  have low : toInt off % 2 ^ 32 = off % 2 ^ 32 := by
    rw [toInt]
    split <;> omega
  apply toInt_congr
  omega

theorem programHeaders_at
    (read : ∀ header ∈ programHeaders ip n (toInt off), header.isSome) :
    (programHeaders ip n (toInt off))[i]? = some (some ph) ↔
      i < n ∧ (readExactly ip (toInt (off + phdrSize * i)) phdrSize).map Phdr.decode =
        some ph := by
  induction n generalizing off i with
  | zero => simp [programHeaders]
  | succ n ih =>
      rw [programHeaders] at read ⊢
      cases found : readExactly ip (toInt off) phdrSize with
      | none =>
          rw [found] at read
          exact absurd (read none (List.mem_cons_self ..)) (by decide)
      | some bytes =>
          rw [found, toInt_add] at read
          rw [toInt_add]
          cases i with
          | zero =>
              simp [found]
          | succ i =>
              have next : off + phdrSize + phdrSize * i = off + phdrSize * (i + 1) := by ring
              rw [List.getElem?_cons_succ,
                ih fun header member => read header (List.mem_cons_of_mem _ member), next]
              simp

end Headers

/-! ## `execve` -/

section Image

variable {R : Rules kernelEnd Pid} {h : Heap kernelEnd} {roots : Set (Nat × Nat)}
  {pgdir free : Nat} {argv : List (List UInt8)} {ip : Fs.File} {elf : Ehdr}

/-- The headers that the loop of `execve` meets. -/
def headersOf (ip : Fs.File) (elf : Ehdr) : List (Option Phdr) :=
  programHeaders ip elf.e_phnum (toInt elf.e_phoff)

/-- The segments of the file lie below the two stack pages of an image of `sz` bytes. -/
structure Filled (h : Heap kernelEnd) (pgdir : Nat) (ip : Fs.File) (elf : Ehdr) (sz : Nat) :
    Prop where
  intro ::
  segments : ∃ top, sz = (pages top + 2) * PGSIZE ∧
    (∀ header ∈ headersOf ip elf, Fits ip top header) ∧
    Holds h pgdir (pages top) (image ip (headersOf ip elf) fun _ => 0)

theorem loadImage_contents (noZero : 0 < kernelEnd) (allowed : ∀ message, R.mayPanic message)
    (supply : h.supply = some free) (keeps : h.Keeps roots) (more : R.live ⊆ roots)
    (tree : (pgdir, 4) ∈ roots) (span : Span h pgdir (pages 0) fun _ => true)
    (short : ∀ arg, arg ∈ argv → arg.length + 1 ≤ UADDR_SZ) :
    R.wp (loadImage kernelEnd R.self pgdir ip elf argv) h fun result h' =>
      ∀ sz sp, result = some (sz, sp) → Filled h' pgdir ip elf sz := by
  have refused : ∀ h' : Heap kernelEnd, ∀ sz sp, (none : Option (Nat × Nat)) = some (sz, sp) →
      Filled h' pgdir ip elf sz := by
    intro h' sz sp none
    cases none
  have contents : R.wp (loadSegments kernelEnd pgdir ip (headersOf ip elf) 0) h
      fun result h' => ∀ top, result = some top →
        (∀ header ∈ headersOf ip elf, Fits ip top header) ∧
        Holds h' pgdir (pages top) (image ip (headersOf ip elf) fun _ => 0) := by
    apply loadSegments_contents noZero allowed keeps more tree
      (span.contiguous keeps tree (by decide))
    · intro va below
      have nothing : pages 0 * PGSIZE = 0 := by decide
      omega
    · exact fun _ _ => rfl
    · decide
    · exact fun _ _ none => by cases none
    · intro h' sz' _ fits _ _ holds top same
      cases same
      exact ⟨fits, holds⟩
  apply R.bind
  apply R.knowing contents
  apply R.untouched loadSegments_only
  apply loadSegments_spec (P := SegmentsHarmless ip (StackHarmless argv) _ 0 free)
    (Q := SegmentsLoad ip (Clobbers argv h.tf.r1) _ 0 free) noZero keeps more tree span (by decide)
  · intro free' supply'
    rw [supply] at supply'
    cases supply'
    exact Iff.rfl
  · intro free' supply'
    rw [supply] at supply'
    cases supply'
    exact Iff.rfl
  · exact fun _ => allowed
  · exact fun h' _ _ _ _ _ => R.ret (refused h')
  · intro h' top cost low keeps' span' _ meaning clobbers tf known
    rcases known top rfl with ⟨fits, holds⟩
    rw [← tf] at clobbers
    change R.wp (userStack kernelEnd R.self pgdir argv top) h' _
    apply userStack_stack noZero keeps' more tree span' short low meaning clobbers
    · exact fun _ => allowed
    · exact fun h'' _ _ _ => refused h''
    · intro h'' y page addresses sp _ _ _ _ _ _ _ agree sz sp' same
      cases same
      exact ⟨top, rfl, fits, holds.agree agree⟩

end Image

section Execve

variable [DecidableEq Pid] {p : Pid} {s s' : Machine Pid} {argv : List (List UInt8)}
  {ip : Fs.File} {elf : Ehdr} {argc : Nat}

/-- The new address space of a process, filled with the segments. -/
structure Machine.Filled (kernelEnd : Nat) (p : Pid) (argv : List (List UInt8)) (ip : Fs.File)
    (elf : Ehdr) (s : Machine Pid) : Prop where
  ready : s.Ready kernelEnd p
  loaded : Loaded (s.view kernelEnd p) {((s.proc p).pgdir, 4)} (s.proc p).pgdir argv
    (s.proc p).sz (s.proc p).tf.sp
  filled : Vm.Filled (s.view kernelEnd p) (s.proc p).pgdir ip elf (s.proc p).sz

theorem image_filled (ready : s.Ready kernelEnd p)
    (short : ∀ arg, arg ∈ argv → arg.length + 1 ≤ UADDR_SZ) :
    machine.Leaves p
      (fun result s' => ∀ argc, result = some argc → s'.Filled kernelEnd p argv ip elf)
      (do
        let pgdir ← pgdirInit
        match ← loadImage kernelEnd p pgdir ip elf argv with
        | none =>
            vmFree kernelEnd pgdir 1
            return none
        | some (sz, sp) =>
            let proc ← perform (.proc p)
            perform (.setPgdir p pgdir)
            perform (.setSz p sz)
            perform (.setTf p { proc.tf with sp := sp, elr := elf.e_entry })
            vmFree kernelEnd proc.pgdir 1
            return some proc.tf.r0) s := by
  let R := aloneRules kernelEnd p fun _ => True
  let old : Set (Nat × Nat) := {((s.proc p).pgdir, 4)}
  have allowed : ∀ message, R.mayPanic message := fun _ => trivial
  have more : ∀ roots, R.live ⊆ roots := fun roots => Set.empty_subset roots
  have init : R.wp pgdirInit (s.view kernelEnd p) fun pgdir h =>
      (s.view kernelEnd p).page pgdir = none ∧ h.Keeps (insert (pgdir, 4) old) ∧
        Span h pgdir (pages 0) fun _ => true := by
    apply pgdirInit_keeps ready.keeps (more _)
    · exact fun _ => allowed _
    · exact fun pgdir usable new _ keeps => ⟨new, keeps, Span.empty Heap.take_page_same⟩
  refine System.Leaves.bind ((ready.sound.ends init).leaves.mono ?_)
  rintro pgdir s₁ ⟨sound₁, framed₁, new, keeps₁, span₁⟩
  have load : R.wp (loadImage kernelEnd p pgdir ip elf argv) (s₁.view kernelEnd p)
      fun result h => ∀ sz sp, result = some (sz, sp) → Vm.Filled h pgdir ip elf sz ∧
        h.Keeps (insert (pgdir, 4) old) ∧
        Loaded h (insert (pgdir, 4) old) pgdir argv sz sp := by
    have self : R.self = p := rfl
    rw [← self]
    apply R.knowing (loadImage_contents ready.kernel allowed rfl keeps₁ (more _) (Or.inl rfl)
      span₁ short)
    apply loadImage_loaded (P := SegmentsHarmless ip (StackHarmless argv) _ 0 s₁.freeList.length)
      (Q := SegmentsLoad ip (Clobbers argv _) _ 0 s₁.freeList.length)
      ready.kernel keeps₁ (more _) (Or.inl rfl) span₁ short
    · intro free supply
      cases supply
      exact Iff.rfl
    · intro free supply
      cases supply
      exact Iff.rfl
    · exact fun _ => allowed
    · exact fun h _ _ _ _ _ _ none => by cases none
    · intro h sz sp keeps loaded _ _ filled sz' sp' same
      cases same
      exact ⟨filled sz sp rfl, keeps, loaded⟩
  refine System.Leaves.bind ((sound₁.ends load).leaves.mono ?_)
  rintro result s₂ ⟨sound₂, framed₂, found⟩
  have framed := framed₁.trans framed₂
  cases result with
  | none =>
      apply System.Leaves.bind
      apply System.Leaves.always
      intro _ s₃
      exact .ret fun _ none => by cases none
  | some image =>
      rcases image with ⟨sz, sp⟩
      rcases found sz sp rfl with ⟨⟨top, size, fits, holds⟩, keeps₂, loaded₂⟩
      have same : (s₂.proc p).pgdir = (s.proc p).pgdir := by rw [framed.self]
      have other : (s.proc p).pgdir ≠ pgdir := by
        rintro rfl
        exact ready.keeps.not_root new rfl
      have swap : insert (pgdir, 4) old = insert ((s₂.proc p).pgdir, 4) {(pgdir, 4)} := by
        rw [same]
        exact Set.pair_comm _ _
      rw [swap] at keeps₂ loaded₂
      refine System.Leaves.mono (System.Ends.leaves
        (switch_ends ready.kernel sound₂ (same ▸ other) keeps₂ loaded₂)) ?_
      rintro result s' ⟨argc, rfl, _, ready', loaded', pgdir', sz', agree⟩ _ _
      refine ⟨ready', loaded', top, sz'.trans size, fits, ?_⟩
      rw [pgdir']
      exact holds.agree fun n _ => agree n

/-- What a file that is executed fills the address space with. -/
theorem execve_filled {bytes : List UInt8} (ready : s.Ready kernelEnd p)
    (args : ∀ arg, arg ∈ argv → arg.length + 1 ≤ (s.proc p).sz)
    (read : readExactly ip 0 ehdrSize = some bytes)
    (done : machine.Completes p (execve kernelEnd p (some ip) argv) s (some argc) s') :
    s'.Filled kernelEnd p argv ip (Ehdr.decode bytes) := by
  have short : ∀ arg, arg ∈ argv → arg.length + 1 ≤ UADDR_SZ :=
    fun arg member => (args arg member).trans ready.size.le
  rw [execve, read] at done
  by_cases magic : bytes.take 4 ≠ ELFMAG
  · simp only [if_pos magic] at done
    have none : machine.Completes p (.ret (none : Option Nat)) s none s := .refl _ _
    cases (none.unique done).1
  · simp only [if_neg magic] at done
    exact (image_filled ready short).of_completes done argc rfl

/-! ## What is meant -/

/-- The addresses of a segment. -/
def Phdr.Covers (ph : Phdr) (va : Nat) : Prop :=
  ph.p_vaddr ≤ va ∧ va < ph.p_vaddr + ph.p_memsz

/-- No address lies in two segments. -/
def DisjointSegments (ip : Fs.File) (elf : Ehdr) : Prop :=
  ∀ i j ph ph' va, Segment ip elf i ph → Segment ip elf j ph' → ph.Covers va → ph'.Covers va →
    i = j

/--
The address space holds the segments of the file, zeros elsewhere below the two pages of the
stack, and all its pages but the guard page are accessible.
-/
structure Faithful (ip : Fs.File) (elf : Ehdr) (p : Pid) (s : Machine Pid) : Prop where
  stack : 2 * PGSIZE ≤ (s.proc p).sz
  below : ∀ i ph, Segment ip elf i ph → ph.p_vaddr + ph.p_memsz ≤ (s.proc p).sz - 2 * PGSIZE
  file : ∀ i ph k, Segment ip elf i ph → k < ph.p_filesz →
    ph.p_offset + k < ip.size.toNat ∧
      byteOf s.mem (s.proc p).pgdir (ph.p_vaddr + k) = some (ip.data (ph.p_offset + k))
  bss : ∀ i ph k, Segment ip elf i ph → ph.p_filesz ≤ k → k < ph.p_memsz →
    byteOf s.mem (s.proc p).pgdir (ph.p_vaddr + k) = some 0
  rest : ∀ va, va < (s.proc p).sz - 2 * PGSIZE →
    (∀ i ph, Segment ip elf i ph → ¬ ph.Covers va) → byteOf s.mem (s.proc p).pgdir va = some 0
  mapped : ∀ va, va < (s.proc p).sz → (mappedPage s.mem (s.proc p).pgdir va).isSome
  accessible : ∀ va, va < (s.proc p).sz →
    ((userPage s.mem (s.proc p).pgdir va).isSome ↔
      va < (s.proc p).sz - 2 * PGSIZE ∨ (s.proc p).sz - PGSIZE ≤ va)

omit [DecidableEq Pid] in
theorem Machine.byteOf_view {roots : Set (Nat × Nat)} {pgdir va : Nat} {byte : UInt8}
    (keeps : (s.view kernelEnd p).Keeps roots) (tree : (pgdir, 4) ∈ roots)
    (here : (s.view kernelEnd p).byte pgdir va = some byte) :
    byteOf s.mem pgdir va = some byte := by
  rw [Heap.byte, Option.bind_eq_some_iff] at here
  rcases here with ⟨y, found, here⟩
  rw [Option.map_eq_some_iff] at here
  rcases here with ⟨page, held, rfl⟩
  rw [byteOf, mappedPage_eq keeps tree, found, Option.map_some,
    (Machine.view_page_eq_some held).2.2]

omit [DecidableEq Pid] in
/-- The process can access the pages that its address space shows. -/
theorem Span.userPage {roots : Set (Nat × Nat)} {pgdir va k : Nat} {shown : Nat → Bool}
    (span : Span (s.view kernelEnd p) pgdir k shown)
    (keeps : (s.view kernelEnd p).Keeps roots) (tree : (pgdir, 4) ∈ roots) (small : k ≤ 2 ^ 16)
    (inside : va / PGSIZE < k) :
    (Vm.userPage s.mem pgdir va).isSome ↔ shown (va / PGSIZE) = true := by
  have low : va < 2 ^ 30 := by
    simp only [PGSIZE] at inside
    omega
  rcases span.some_table inside with ⟨t, table⟩
  rcases span.entry keeps tree table with ⟨entries, held, entry⟩
  rw [if_pos inside] at entry
  rcases entry with ⟨y, linked, _, access⟩
  rcases children_eq_some linked with ⟨present, _⟩
  rw [Vm.userPage, if_pos (by omega), walkPath_va low,
    Machine.follow_view keeps tree (by simp [tablePath]), table, Option.bind_some, PTX_va,
    (Machine.view_page_eq_some held).2.2]
  simp [present, access]

omit [DecidableEq Pid] in
/-- Where no two segments overlap the image is what is meant. -/
theorem Machine.Filled.faithful (filled : s.Filled kernelEnd p argv ip elf)
    (disjoint : DisjointSegments ip elf) : Faithful ip elf p s := by
  rcases filled.loaded.stack with ⟨g, y, page, addresses, size, stack, _, _⟩
  rcases filled.filled.segments with ⟨top, size', fits, holds⟩
  have keeps := filled.ready.keeps
  have same : g = pages top := by
    rw [size] at size'
    have equal := Nat.eq_of_mul_eq_mul_right (by decide : 0 < PGSIZE) size'
    omega
  subst same
  have small := stack.small
  have page : 0 < PGSIZE := by decide
  have double : (pages top + 2) * PGSIZE = pages top * PGSIZE + 2 * PGSIZE := Nat.add_mul _ _ _
  have base : (s.proc p).sz - 2 * PGSIZE = pages top * PGSIZE := by omega
  have reach : top ≤ pages top * PGSIZE := pages_le
  have read : ∀ header ∈ headersOf ip elf, header.isSome := by
    intro header member
    rcases fits header member with ⟨ph, rfl, _⟩
    rfl
  have at_iff : ∀ (i : Nat) ph, (headersOf ip elf)[i]? = some (some ph) ↔ i < elf.e_phnum ∧
      (readExactly ip (toInt (elf.e_phoff + phdrSize * i)) phdrSize).map Phdr.decode =
        some ph := fun i ph => programHeaders_at read
  have segment : ∀ i ph, Segment ip elf i ph → (headersOf ip elf)[i]? = some (some ph) ∧
      ph.p_filesz ≤ ph.p_memsz ∧
      (0 < ph.p_filesz → ph.p_offset + ph.p_filesz ≤ ip.size.toNat) ∧
      ph.p_vaddr + ph.p_memsz ≤ top := by
    rintro i ph ⟨below, found, kind⟩
    have here := (at_iff i ph).mpr ⟨below, found⟩
    rcases fits _ (List.mem_of_getElem? here) with ⟨ph', equal, inside⟩
    cases equal
    exact ⟨here, inside kind⟩
  have covers : ∀ (j : Nat) ph va, (headersOf ip elf)[j]? = some (some ph) → ph.FromFile va →
      Segment ip elf j ph ∧ ph.Covers va := by
    rintro j ph va found ⟨kind, low, high⟩
    have at' := (at_iff j ph).mp found
    have seg : Segment ip elf j ph := ⟨at'.1, at'.2, kind⟩
    have file := (segment j ph seg).2.1
    exact ⟨seg, low, by omega⟩
  have byte : ∀ va, va < pages top * PGSIZE → byteOf s.mem (s.proc p).pgdir va =
      some (image ip (headersOf ip elf) (fun _ => 0) va) := fun va below =>
    Machine.byteOf_view keeps rfl (holds va below)
  have zero : ∀ va, va < pages top * PGSIZE →
      (∀ (i : Nat) ph, (headersOf ip elf)[i]? = some (some ph) → ¬ ph.FromFile va) →
      byteOf s.mem (s.proc p).pgdir va = some 0 := by
    intro va below outside
    rw [byte va below, image_other]
    intro ph member
    rcases List.mem_iff_getElem?.mp member with ⟨i, found⟩
    exact outside i ph found
  constructor
  · omega
  · intro i ph seg
    rw [base]
    exact (segment i ph seg).2.2.2.trans reach
  · intro i ph k seg below
    rcases segment i ph seg with ⟨here, file, whole, inside⟩
    have bound := whole (by omega)
    refine ⟨by omega, ?_⟩
    have covered : ph.FromFile (ph.p_vaddr + k) := ⟨seg.2.2, Nat.le_add_right _ _, by omega⟩
    have off : ph.p_vaddr + k - ph.p_vaddr = k := Nat.add_sub_cancel_left _ _
    rw [byte _ (by omega), image_at read here covered, off]
    intro j ph' found covered'
    rcases covers j ph' _ found covered' with ⟨seg', cover'⟩
    exact disjoint j i ph' ph _ seg' seg cover' (covers i ph _ here covered).2
  · intro i ph k seg above below
    rcases segment i ph seg with ⟨here, _, _, inside⟩
    apply zero _ (by omega)
    intro j ph' found covered'
    rcases covers j ph' _ found covered' with ⟨seg', cover'⟩
    have cover : ph.Covers (ph.p_vaddr + k) := ⟨Nat.le_add_right _ _, by omega⟩
    have equal := disjoint j i ph' ph _ seg' seg cover' cover
    subst equal
    rw [found] at here
    cases here
    have high := covered'.2.2
    omega
  · intro va below outside
    rw [base] at below
    apply zero va below
    intro i ph found covered
    rcases covers i ph va found covered with ⟨seg, cover⟩
    exact outside i ph seg cover
  · intro va below
    rw [mappedPage_eq keeps rfl]
    have inside : va / PGSIZE < pages top + 2 := (Nat.div_lt_iff_lt_mul page).mpr (by omega)
    exact (stack.span.contiguous keeps rfl small _ (by simp only [PAGES]; omega)).mpr inside
  · intro va below
    have inside : va / PGSIZE < pages top + 2 := (Nat.div_lt_iff_lt_mul page).mpr (by omega)
    rw [stack.span.userPage keeps rfl small inside, base]
    by_cases guard : va / PGSIZE = pages top
    · rw [guard, Function.update_self]
      have low : pages top * PGSIZE ≤ va := (Nat.le_div_iff_mul_le page).mp guard.ge
      have high : va < (pages top + 1) * PGSIZE := (Nat.div_lt_iff_lt_mul page).mp (by omega)
      rw [Nat.add_mul, Nat.one_mul] at high
      simp only [Bool.false_eq_true, false_iff]
      omega
    · rw [Function.update_of_ne guard]
      simp only [true_iff]
      by_cases low : va < pages top * PGSIZE
      · exact Or.inl low
      · have above : pages top + 1 ≤ va / PGSIZE := by
          have least : pages top ≤ va / PGSIZE := (Nat.le_div_iff_mul_le page).mpr (by omega)
          omega
        have high : (pages top + 1) * PGSIZE ≤ va := (Nat.le_div_iff_mul_le page).mp above
        rw [Nat.add_mul, Nat.one_mul] at high
        right
        omega

/-- An executable file without overlapping segments is loaded faithfully. -/
theorem execve_faithful {bytes : List UInt8} (ready : s.Ready kernelEnd p)
    (args : ∀ arg, arg ∈ argv → arg.length + 1 ≤ (s.proc p).sz)
    (read : readExactly ip 0 ehdrSize = some bytes)
    (disjoint : DisjointSegments ip (Ehdr.decode bytes))
    (done : machine.Completes p (execve kernelEnd p (some ip) argv) s (some argc) s') :
    Faithful ip (Ehdr.decode bytes) p s' :=
  (execve_filled ready args read done).faithful disjoint

end Execve

/-! ## A file with two segments -/

/-- Four bytes of the file at address 0 and four at address 16, each with four zeros behind. -/
def twoSegments : Fs.File where
  type := 2
  major := 0
  minor := 0
  nlink := 1
  size := 176
  data k :=
    -- `e_phoff` and `e_phnum`, then the fields of the two headers that are not zero
    (List.lookup k [(32, 64), (56, 2), (64, 1), (96, 4), (104, 8), (120, 1), (128, 16),
      (136, 16), (152, 4), (160, 8)]).getD (ELFMAG.getD k 0)

/-- The two headers. -/
def twoHeaders : List Phdr :=
  [0, 16].map fun place =>
    { p_type := PT_LOAD, p_offset := place, p_vaddr := place, p_filesz := 4, p_memsz := 8 }

/-- The two segments in the new page table. -/
def twoLoaded : Option Nat × Machine Unit :=
  (machine.run () (loadSegments 1 started.1 twoSegments (twoHeaders.map some) 0)
    started.2).get (by decide)

set_option maxRecDepth 20000 in
theorem twoSegments_completes :
    ∃ s', machine.Completes () (execve 1 () (some twoSegments) [sh]) caller (some 1) s' := by
  have filled : ((machine.run () (userStack 1 () started.1 [sh] 24) twoLoaded.2).map
      Prod.fst).join.isSome := by decide +kernel
  rcases System.run_isSome filled with ⟨⟨sz, sp⟩, s₃, stack⟩
  have read : readExactly twoSegments 0 ehdrSize =
      some ((readExactly twoSegments 0 ehdrSize).get (by decide)) :=
    (Option.some_get _).symm
  refine execve_succeeds caller_ready sh_inside read (by decide) caller_starts ?_ stack
  have headers : programHeaders twoSegments
      (Ehdr.decode ((readExactly twoSegments 0 ehdrSize).get (by decide))).e_phnum
      (toInt (Ehdr.decode ((readExactly twoSegments 0 ehdrSize).get
        (by decide))).e_phoff) = twoHeaders.map some := by decide
  have size : twoLoaded.1 = some 24 := by decide
  have loaded : machine.run () (loadSegments 1 started.1 twoSegments (twoHeaders.map some) 0)
      started.2 = some twoLoaded := (Option.some_get _).symm
  rw [headers, ← size]
  exact System.run_completes loaded

theorem execve_faithful_twoSegments :
    ∃ s' bytes, readExactly twoSegments 0 ehdrSize = some bytes ∧
      machine.Completes () (execve 1 () (some twoSegments) [sh]) caller (some 1) s' ∧
      Faithful twoSegments (Ehdr.decode bytes) () s' := by
  rcases twoSegments_completes with ⟨s', done⟩
  have read : readExactly twoSegments 0 ehdrSize =
      some ((readExactly twoSegments 0 ehdrSize).get (by decide)) :=
    (Option.some_get _).symm
  have two : (Ehdr.decode ((readExactly twoSegments 0 ehdrSize).get
      (by decide))).e_phnum = 2 := by decide
  have phoff : (Ehdr.decode ((readExactly twoSegments 0 ehdrSize).get
      (by decide))).e_phoff = 64 := by decide
  have headers : ∀ i < 2, (readExactly twoSegments (toInt (64 + phdrSize * i)) phdrSize).map
      Phdr.decode = some
        { p_type := PT_LOAD, p_offset := 16 * i, p_vaddr := 16 * i, p_filesz := 4
          p_memsz := 8 } := by
    decide
  have place : ∀ i ph, Segment twoSegments (Ehdr.decode ((readExactly twoSegments 0 ehdrSize).get
      (by decide))) i ph → ph.p_vaddr = 16 * i ∧ ph.p_memsz = 8 := by
    rintro i ph ⟨low, header, _⟩
    rw [two] at low
    rw [phoff, headers i low] at header
    cases header
    exact ⟨rfl, rfl⟩
  refine ⟨s', _, read, done, execve_faithful caller_ready sh_inside read ?_ done⟩
  rintro i j ph ph' va first second ⟨low, high⟩ ⟨low', high'⟩
  rcases place i ph first with ⟨start, size⟩
  rcases place j ph' second with ⟨start', size'⟩
  omega

end PiKernel.Vm
