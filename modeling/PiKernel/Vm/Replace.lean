import PiKernel.Vm.Stack
import PiKernel.Vm.Teardown

/-!
# Replacing the image of a process

What a call of `execve` does: it panics where the file, the arguments and the free
pages are not harmless, and otherwise it fails and leaves the process as it was, or
the process has the new image with its arguments on the stack.
-/

namespace PiKernel.Vm

open PiKernel.Conc
open PiKernel.Conc.Prog (perform)

variable {kernelEnd : Nat} {Pid : Type}

/-! ## The new image -/

section Image

variable {R : Rules kernelEnd Pid} {h h' : Heap kernelEnd} {roots : Set (Nat × Nat)}
  {pgdir : Nat} {argv : List (List UInt8)} {elf : Ehdr}

/-- The argument strings and the vectors lie in the last page of the image. -/
structure Loaded (h : Heap kernelEnd) (roots : Set (Nat × Nat)) (pgdir : Nat)
    (argv : List (List UInt8)) (sz sp : Nat) : Prop where
  argc : h.tf.r0 = argv.length
  size : sz < UADDR_SZ
  stack : ∃ g y page addresses, sz = (g + 2) * PGSIZE ∧ Stack h roots pgdir g y page ∧
    (g + 1) * PGSIZE ≤ sp ∧
    Pile page ((g + 1) * PGSIZE) (vectors addresses) addresses argv sp

theorem loadImage_loaded {post : Option (Nat × Nat) → Heap kernelEnd → Prop} {P Q : Prop}
    {ip : Fs.File} (noZero : 0 < kernelEnd) (keeps : h.Keeps roots) (more : R.live ⊆ roots)
    (tree : (pgdir, 4) ∈ roots) (span : Span h pgdir (pages 0) fun _ => true)
    (short : ∀ arg, arg ∈ argv → arg.length + 1 ≤ UADDR_SZ)
    (meaning : ∀ free, h.supply = some free →
      (P ↔ SegmentsHarmless ip (StackHarmless argv)
        (programHeaders ip elf.e_phnum (toInt elf.e_phoff)) 0 free))
    (clobbers : ∀ free, h.supply = some free →
      (Q ↔ SegmentsLoad ip (Clobbers argv h.tf.r1)
        (programHeaders ip elf.e_phnum (toInt elf.e_phoff)) 0 free))
    (panics : Known h (¬ P) → ∀ message, R.mayPanic message)
    (fail : ∀ h', h'.Keeps roots → Known h P → Known h (Kept Q h.tf h'.tf) → post none h')
    (done : ∀ h' sz sp, h'.Keeps roots → Loaded h' roots pgdir argv sz sp → Known h P →
      Known h (¬ Q) → post (some (sz, sp)) h') :
    R.wp (loadImage kernelEnd R.self pgdir ip elf argv) h post := by
  apply R.bind
  apply R.untouched loadSegments_only
  apply loadSegments_spec noZero keeps more tree span (by decide) meaning clobbers panics
  · intro h' keeps' known not tf
    exact R.ret (fail h' keeps' known fun free supply => .same tf (not free supply))
  · intro h' sz cost low keeps' span' spent meaning' clobbers' tf
    change R.wp (userStack kernelEnd R.self pgdir argv sz) h' post
    rw [← tf] at clobbers'
    apply userStack_stack noZero keeps' more tree span' short low meaning' clobbers'
    · exact fun wrong => panics (wrong.back spent)
    · intro h'' keeps'' known kept
      rw [tf] at kept
      exact fail h'' keeps'' (known.back spent) (kept.back spent)
    · intro h'' y page addresses sp size stack inside pile argc known not _
      exact done h'' _ sp stack.keeps
        ⟨argc, size, pages sz, y, page, addresses, rfl, stack, inside, pile⟩ (known.back spent)
        (not.back spent)

/-- A tree is apart from what is reached in another one. -/
theorem not_mem_reach {x z : Nat} {path : List Nat} {lengths : Nat → Prop}
    (keeps : h.Keeps (insert (x, 4) roots)) (outside : (x, 4) ∉ roots)
    (tree : (pgdir, 4) ∈ roots) (short : ∀ n, lengths n → n ≤ 4) (bound : path.length ≤ 4)
    (found : h.links.follow pgdir path = some z) : z ∉ h.reach lengths x := by
  rintro ⟨path', length, found'⟩
  have equal := Forest.once keeps pgdir 4 (Or.inr tree) x 4 (Or.inl rfl) path path' z bound
    (short _ length) found found'
  rw [equal.1] at tree
  exact outside tree

/-- Other trees may be given back. -/
theorem Heap.Lacks.agree {x n : Nat} {lengths : Nat → Prop} (lacks : h'.Lacks h (h.reach lengths x))
    (keeps : h.Keeps (insert (x, 4) roots)) (outside : (x, 4) ∉ roots)
    (tree : (pgdir, 4) ∈ roots) (short : ∀ n, lengths n → n ≤ 4) : Agree h h' pgdir n := by
  apply Agree.of_tables
  · intro before z shorter found
    exact lacks.links (not_mem_reach keeps outside tree short shorter.le found)
  · intro y found
    exact lacks.other (not_mem_reach keeps outside tree short leafPath_length.le found)

theorem Stack.lacks {g y x : Nat} {page : Page} {lengths : Nat → Prop}
    (stack : Stack h (insert (x, 4) roots) pgdir g y page) (outside : (x, 4) ∉ roots)
    (tree : (pgdir, 4) ∈ roots) (short : ∀ n, lengths n → n ≤ 4)
    (lacks : h'.Lacks h (h.reach lengths x)) : Stack h' roots pgdir g y page := by
  have apart : ∀ (path : List Nat), path.length ≤ 4 → ∀ z,
      h.links.follow pgdir path = some z → z ∉ h.reach lengths x :=
    fun _ bound _ found => not_mem_reach stack.keeps outside tree short bound found
  have four : (pagePath (g + 1)).length = 4 := by simp [pagePath, tablePath]
  constructor
  · exact stack.keeps.lacks_reach outside short lacks
  · exact tree
  · exact stack.small
  · apply stack.span.congr
    intro path z bound found
    exact lacks.other (apart path (by omega) z found)
  · rw [lacks.follow apart four.le]
    exact stack.found
  · rw [lacks.other (apart _ four.le y stack.found)]
    exact stack.here

theorem Loaded.lacks {x sz sp : Nat} {lengths : Nat → Prop}
    (loaded : Loaded h (insert (x, 4) roots) pgdir argv sz sp) (outside : (x, 4) ∉ roots)
    (tree : (pgdir, 4) ∈ roots) (short : ∀ n, lengths n → n ≤ 4)
    (lacks : h'.Lacks h (h.reach lengths x)) : Loaded h' roots pgdir argv sz sp := by
  rcases loaded.stack with ⟨g, y, page, addresses, equal, stack, inside, pile⟩
  constructor
  · rw [lacks.tf, loaded.argc]
  · exact loaded.size
  · exact ⟨g, y, page, addresses, equal, stack.lacks outside tree short lacks, inside, pile⟩

theorem Loaded.setTf {sz sp : Nat} {tf : Trapframe}
    (loaded : Loaded h roots pgdir argv sz sp) (same : tf.r0 = h.tf.r0) :
    Loaded { h with tf := tf } roots pgdir argv sz sp := by
  rcases loaded.stack with ⟨g, y, page, addresses, equal, stack, inside, pile⟩
  constructor
  · exact same.trans loaded.argc
  · exact loaded.size
  · exact ⟨g, y, page, addresses, equal, stack.setTf, inside, pile⟩

end Image

/-! ## `execve` -/

section Execve

variable {p : Pid} {s s' : Machine Pid} {argv : List (List UInt8)}
  {file : Option Fs.File}

/-- The pages of a process are in order, and its strings lie in them. -/
structure Machine.Ready (kernelEnd : Nat) (p : Pid) (s : Machine Pid) : Prop where
  kernel : 0 < kernelEnd
  sound : s.Sound kernelEnd
  keeps : (s.view kernelEnd p).Keeps {((s.proc p).pgdir, 4)}
  size : (s.proc p).sz < UADDR_SZ

/-- What `execve` leaves; `none` for -1. -/
structure Executed (kernelEnd : Nat) (p : Pid) (s : Machine Pid) (argv : List (List UInt8))
    (result : Option Nat) (s' : Machine Pid) : Prop where
  ready : s'.Ready kernelEnd p
  failed : result = none → s.Framed p s'
  replaced : ∀ argc, result = some argc → argc = argv.length ∧
    Loaded (s'.view kernelEnd p) {((s'.proc p).pgdir, 4)} (s'.proc p).pgdir argv
      (s'.proc p).sz (s'.proc p).tf.sp

theorem Machine.Ready.framed (ready : s.Ready kernelEnd p) (sound : s'.Sound kernelEnd)
    (framed : s.Framed p s') (keeps : (s'.view kernelEnd p).Keeps {((s.proc p).pgdir, 4)}) :
    s'.Ready kernelEnd p := by
  have pgdir : (s'.proc p).pgdir = (s.proc p).pgdir := by rw [framed.self]
  have sz : (s'.proc p).sz = (s.proc p).sz := by rw [framed.self]
  exact ⟨ready.kernel, sound, by rwa [pgdir], by rw [sz]; exact ready.size⟩

theorem Executed.refl (ready : s.Ready kernelEnd p) : Executed kernelEnd p s argv none s :=
  ⟨ready, fun _ => .refl, fun _ none => by cases none⟩

variable [DecidableEq Pid] {mayPanic : String → Prop} {pgdir sz sp e_entry : Nat}

/-- The end of a call that succeeds. -/
theorem switch_ends (kernel : 0 < kernelEnd) (sound : s.Sound kernelEnd)
    (other : (s.proc p).pgdir ≠ pgdir)
    (keeps : (s.view kernelEnd p).Keeps (insert ((s.proc p).pgdir, 4) {(pgdir, 4)}))
    (loaded : Loaded (s.view kernelEnd p) (insert ((s.proc p).pgdir, 4) {(pgdir, 4)}) pgdir argv
      sz sp) :
    machine.Ends p mayPanic
      (fun result s' => ∃ argc, result = some argc ∧ argc = argv.length ∧
        s'.Ready kernelEnd p ∧
        Loaded (s'.view kernelEnd p) {((s'.proc p).pgdir, 4)} (s'.proc p).pgdir argv
          (s'.proc p).sz (s'.proc p).tf.sp ∧
        (s'.proc p).pgdir = pgdir ∧ (s'.proc p).sz = sz ∧
        ∀ n, Agree (s.view kernelEnd p) (s'.view kernelEnd p) pgdir n)
      (do
        let proc ← perform (.proc p)
        perform (.setPgdir p pgdir)
        perform (.setSz p sz)
        perform (.setTf p { proc.tf with sp := sp, elr := e_entry })
        vmFree kernelEnd proc.pgdir 1
        return some proc.tf.r0) s := by
  let tf : Trapframe := { (s.proc p).tf with sp := sp, elr := e_entry }
  let proc : Proc Pid := { s.proc p with pgdir := pgdir, sz := sz, tf := tf }
  have here : (s.setProc p proc).proc p = proc := Function.update_self _ _ _
  have viewed : (s.setProc p proc).view kernelEnd p = { s.view kernelEnd p with tf := tf } := by
    ext1
    · rfl
    · rfl
    · exact congrArg Proc.tf here
  have sound' : (s.setProc p proc).Sound kernelEnd := ⟨sound.nodup, sound.usable⟩
  have outside : ∀ height, ((s.proc p).pgdir, height) ∉ ({(pgdir, 4)} : Set (Nat × Nat)) := by
    rintro height member
    cases member
    exact other rfl
  have ordered : ((s.setProc p proc).view kernelEnd p).Keeps
      (insert ((s.proc p).pgdir, 4) {(pgdir, 4)}) := by
    rw [viewed]
    exact keeps
  have loaded' : Loaded ((s.setProc p proc).view kernelEnd p)
      (insert ((s.proc p).pgdir, 4) {(pgdir, 4)}) pgdir argv sz sp := by
    rw [viewed]
    exact loaded.setTf rfl
  have more : (aloneRules kernelEnd p mayPanic).live ⊆ {(pgdir, 4)} := Set.empty_subset _
  have freeing := sound'.ends (vmFree_frees ordered outside more)
  refine .step rfl (.step rfl (.step rfl
    (.step (?_ : _ = Outcome.done () (s.setProc p proc)) ?_)))
  · simp [machine, exec, Machine.setProc, proc, tf]
  · apply System.Ends.bind
    refine freeing.mono (fun _ => id) ?_
    rintro _ s' ⟨sound'', framed, lacks⟩
    have short : ∀ n, freed 2 n → n ≤ 4 := by
      rintro n (low | rfl) <;> omega
    have kept := ordered.lacks_reach (outside 4) short lacks
    have loaded'' := loaded'.lacks (outside 4) rfl short lacks
    have self := framed.self
    rw [here] at self
    have pgdir' : (s'.proc p).pgdir = pgdir := by rw [self]
    have sz' : (s'.proc p).sz = sz := by rw [self]
    have tf' : (s'.proc p).tf = tf := lacks.tf.trans (by rw [viewed])
    have pages : ∀ n, Agree (s.view kernelEnd p) (s'.view kernelEnd p) pgdir n := by
      intro n
      have agree : Agree _ (s'.view kernelEnd p) pgdir n :=
        lacks.agree ordered (outside 4) rfl short
      rw [viewed] at agree
      exact agree
    refine .ret ⟨_, rfl, ?_, ?_, ?_, pgdir', sz', pages⟩
    · exact loaded.argc
    · refine ⟨kernel, sound'', ?_, ?_⟩
      · rw [pgdir']
        exact kept
      · rw [sz']
        exact loaded.size
    · rw [pgdir', sz', tf']
      exact loaded''

/-- The end of a call that fails. -/
theorem bad_ends {roots : Set (Nat × Nat)} (sound : s.Sound kernelEnd)
    (outside : ∀ height, (pgdir, height) ∉ roots)
    (keeps : (s.view kernelEnd p).Keeps (insert (pgdir, 4) roots)) :
    machine.Ends p mayPanic
      (fun result s' => result = none ∧ s'.Sound kernelEnd ∧ s.Framed p s' ∧
        (s'.view kernelEnd p).Keeps roots)
      (do
        vmFree kernelEnd pgdir 1
        return (none : Option Nat)) s := by
  have more : (aloneRules kernelEnd p mayPanic).live ⊆ roots := Set.empty_subset _
  apply System.Ends.bind
  refine (sound.ends (vmFree_frees keeps outside more)).mono (fun _ => id) ?_
  rintro _ s' ⟨sound', framed, lacks⟩
  have short : ∀ n, freed 2 n → n ≤ 4 := by
    rintro n (low | rfl) <;> omega
  exact .ret ⟨rfl, sound', framed, keeps.lacks_reach (outside 4) short lacks⟩

/-- A page table beside the one of the process. -/
structure Machine.Started (kernelEnd : Nat) (p : Pid) (s : Machine Pid) (pgdir : Nat)
    (s₁ : Machine Pid) : Prop where
  sound : s₁.Sound kernelEnd
  framed : s.Framed p s₁
  new : (s.view kernelEnd p).page pgdir = none
  keeps : (s₁.view kernelEnd p).Keeps (insert (pgdir, 4) {((s.proc p).pgdir, 4)})
  span : Span (s₁.view kernelEnd p) pgdir (pages 0) fun _ => true
  free : 0 < s.freeList.length
  supply : (s₁.view kernelEnd p).supply = some (s.freeList.length - 1)

theorem pgdirInit_starts (ready : s.Ready kernelEnd p)
    (panics : s.freeList.length = 0 → ∀ message, mayPanic message) :
    machine.Ends p mayPanic (fun pgdir s₁ => s.Started kernelEnd p pgdir s₁) pgdirInit s := by
  have init : (aloneRules kernelEnd p mayPanic).wp pgdirInit (s.view kernelEnd p)
      fun pgdir h => (s.view kernelEnd p).page pgdir = none ∧
        h.Keeps (insert (pgdir, 4) {((s.proc p).pgdir, 4)}) ∧
        Span h pgdir (pages 0) (fun _ => true) ∧ 0 < s.freeList.length ∧
        h.supply = some (s.freeList.length - 1) := by
    apply pgdirInit_keeps ready.keeps (Set.empty_subset _)
    · rintro (unknown | empty)
      · cases unknown
      · exact panics (Option.some.inj empty) _
    · intro pgdir usable new full keeps
      have some : s.freeList.length ≠ 0 := fun none => full (congrArg Option.some none)
      exact ⟨new, keeps, Span.empty Heap.take_page_same, by omega, rfl⟩
  refine (ready.sound.ends init).mono (fun _ => id) ?_
  rintro pgdir s₁ ⟨sound, framed, new, keeps, span, free, supply⟩
  exact ⟨sound, framed, new, keeps, span, free, supply⟩

/-- The image beside the pages of the process. -/
structure Machine.Imaged (kernelEnd : Nat) (p : Pid) (s : Machine Pid) (pgdir : Nat)
    (argv : List (List UInt8)) (image : Option (Nat × Nat)) (s₂ : Machine Pid) : Prop where
  sound : s₂.Sound kernelEnd
  framed : s.Framed p s₂
  new : (s.view kernelEnd p).page pgdir = none
  keeps : (s₂.view kernelEnd p).Keeps (insert (pgdir, 4) {((s.proc p).pgdir, 4)})
  loaded : ∀ sz sp, image = some (sz, sp) →
    Loaded (s₂.view kernelEnd p) (insert (pgdir, 4) {((s.proc p).pgdir, 4)}) pgdir argv sz sp

section Image

variable {ip : Fs.File} {elf : Ehdr} {s₁ s₂ : Machine Pid}

theorem Machine.Started.image (started : s.Started kernelEnd p pgdir s₁)
    (ready : s.Ready kernelEnd p) (short : ∀ arg, arg ∈ argv → arg.length + 1 ≤ UADDR_SZ)
    (panics : ¬ SegmentsHarmless ip (StackHarmless argv)
      (programHeaders ip elf.e_phnum (toInt elf.e_phoff)) 0 (s.freeList.length - 1) →
        ∀ message, mayPanic message) :
    machine.Ends p mayPanic
      (fun image s₂ => SegmentsHarmless ip (StackHarmless argv)
          (programHeaders ip elf.e_phnum (toInt elf.e_phoff)) 0 (s.freeList.length - 1) ∧
        s.Imaged kernelEnd p pgdir argv image s₂)
      (loadImage kernelEnd p pgdir ip elf argv) s₁ := by
  have load : (aloneRules kernelEnd p mayPanic).wp (loadImage kernelEnd p pgdir ip elf argv)
      (s₁.view kernelEnd p) fun image h =>
        SegmentsHarmless ip (StackHarmless argv)
          (programHeaders ip elf.e_phnum (toInt elf.e_phoff)) 0 (s.freeList.length - 1) ∧
        h.Keeps (insert (pgdir, 4) {((s.proc p).pgdir, 4)}) ∧
        ∀ sz sp, image = some (sz, sp) →
          Loaded h (insert (pgdir, 4) {((s.proc p).pgdir, 4)}) pgdir argv sz sp := by
    apply loadImage_loaded (Q := SegmentsLoad ip (Clobbers argv (s₁.view kernelEnd p).tf.r1)
      (programHeaders ip elf.e_phnum (toInt elf.e_phoff)) 0 (s.freeList.length - 1))
      ready.kernel started.keeps (Set.empty_subset _) (Or.inl rfl) started.span short
    · intro free supply
      rw [started.supply] at supply
      cases supply
      exact Iff.rfl
    · intro free supply
      rw [started.supply] at supply
      cases supply
      exact Iff.rfl
    · exact fun wrong => panics (wrong _ started.supply)
    · exact fun h keeps known _ =>
        ⟨known _ started.supply, keeps, fun _ _ none => by cases none⟩
    · intro h sz sp keeps loaded known _
      refine ⟨known _ started.supply, keeps, fun _ _ same => ?_⟩
      cases same
      exact loaded
  refine (started.sound.ends load).mono (fun _ => id) ?_
  rintro image s₂ ⟨sound, framed, harmless, keeps, loaded⟩
  exact ⟨harmless, sound, started.framed.trans framed, started.new, keeps, loaded⟩

/-- The image takes the place of the old one. -/
theorem Machine.Imaged.switch (imaged : s.Imaged kernelEnd p pgdir argv (some (sz, sp)) s₂)
    (ready : s.Ready kernelEnd p) :
    machine.Ends p mayPanic
      (fun result s' => result = some argv.length ∧ Executed kernelEnd p s argv result s')
      (do
        let proc ← perform (.proc p)
        perform (.setPgdir p pgdir)
        perform (.setSz p sz)
        perform (.setTf p { proc.tf with sp := sp, elr := e_entry })
        vmFree kernelEnd proc.pgdir 1
        return some proc.tf.r0) s₂ := by
  have same : (s₂.proc p).pgdir = (s.proc p).pgdir := by rw [imaged.framed.self]
  have other : (s.proc p).pgdir ≠ pgdir := by
    rintro rfl
    exact ready.keeps.not_root imaged.new rfl
  have swap : (insert (pgdir, 4) {((s.proc p).pgdir, 4)} : Set (Nat × Nat)) =
      insert ((s₂.proc p).pgdir, 4) {(pgdir, 4)} := by
    rw [same]
    exact Set.pair_comm _ _
  have keeps := imaged.keeps
  have loaded := imaged.loaded sz sp rfl
  rw [swap] at keeps loaded
  refine (switch_ends ready.kernel imaged.sound (same ▸ other) keeps loaded).mono
    (fun _ => id) ?_
  rintro result s' ⟨argc, rfl, equal, ready', loaded', _⟩
  refine ⟨congrArg some equal, ready', fun none => by (cases none), ?_⟩
  rintro argc' same'
  cases same'
  exact ⟨equal, loaded'⟩

/-- From a file that is an executable. -/
theorem image_ends {P : Prop} (ready : s.Ready kernelEnd p)
    (short : ∀ arg, arg ∈ argv → arg.length + 1 ≤ UADDR_SZ)
    (meaning : P ↔ 0 < s.freeList.length ∧
      SegmentsHarmless ip (StackHarmless argv)
        (programHeaders ip elf.e_phnum (toInt elf.e_phoff)) 0 (s.freeList.length - 1)) :
    machine.Ends p (fun _ => ¬ P)
      (fun result s' => P ∧ Executed kernelEnd p s argv result s')
      (do
        let pgdir ← pgdirInit
        match ← loadImage kernelEnd p pgdir ip elf argv with
        | none =>
            vmFree kernelEnd pgdir 1
            return none
        | some (sz, sp) =>
            let proc ← perform (.proc p)
            perform (.setPgdir p pgdir)
            perform (.setSz p sz)
            perform (.setTf p { proc.tf with sp := sp, elr := elf.e_entry })
            vmFree kernelEnd proc.pgdir 1
            return some proc.tf.r0) s := by
  apply System.Ends.bind
  refine (pgdirInit_starts ready ?_).mono (fun _ => id) ?_
  · intro none _ holds
    have some := (meaning.mp holds).1
    omega
  intro pgdir s₁ started
  apply System.Ends.bind
  refine (started.image ready short ?_).mono (fun _ => id) ?_
  · exact fun wrong _ holds => wrong (meaning.mp holds).2
  rintro image s₂ ⟨harmless, imaged⟩
  have holds : P := meaning.mpr ⟨started.free, harmless⟩
  cases image with
  | none =>
      have outside : ∀ height, (pgdir, height) ∉ ({((s.proc p).pgdir, 4)} : Set (Nat × Nat)) :=
        fun height => ready.keeps.not_root imaged.new
      refine (bad_ends imaged.sound outside imaged.keeps).mono (fun _ => id) ?_
      rintro result s' ⟨rfl, sound', framed', keeps'⟩
      have all := imaged.framed.trans framed'
      exact ⟨holds, ready.framed sound' all keeps', fun _ => all, fun _ none => by cases none⟩
  | some image => exact (imaged.switch ready).mono (fun _ => id) fun _ _ done => ⟨holds, done.2⟩

theorem Machine.Imaged.of_completes {image : Option (Nat × Nat)} (ready : s.Ready kernelEnd p)
    (args : ∀ arg, arg ∈ argv → arg.length + 1 ≤ (s.proc p).sz)
    (init : machine.Completes p pgdirInit s pgdir s₁)
    (load : machine.Completes p (loadImage kernelEnd p pgdir ip elf argv) s₁ image s₂) :
    s.Imaged kernelEnd p pgdir argv image s₂ := by
  have short : ∀ arg, arg ∈ argv → arg.length + 1 ≤ UADDR_SZ :=
    fun arg member => (args arg member).trans ready.size.le
  have starts : machine.Ends p (fun _ => True) _ pgdirInit s :=
    pgdirInit_starts ready fun _ _ => trivial
  have images : machine.Ends p (fun _ => True) _ (loadImage kernelEnd p pgdir ip elf argv) s₁ :=
    (starts.of_completes init).image ready short fun _ _ => trivial
  exact (images.of_completes load).2

/-- A call that has loaded the segments and filled the stack succeeds. -/
theorem execve_succeeds {bytes : List UInt8} {s₃ : Machine Pid} {size : Nat}
    (ready : s.Ready kernelEnd p) (args : ∀ arg, arg ∈ argv → arg.length + 1 ≤ (s.proc p).sz)
    (read : readExactly ip 0 ehdrSize = some bytes) (magic : bytes.take 4 = ELFMAG)
    (init : machine.Completes p pgdirInit s pgdir s₁)
    (segments : machine.Completes p
      (loadSegments kernelEnd pgdir ip (programHeaders ip (Ehdr.decode bytes).e_phnum
        (toInt (Ehdr.decode bytes).e_phoff)) 0) s₁ (some size) s₂)
    (stack : machine.Completes p (userStack kernelEnd p pgdir argv size) s₂ (some (sz, sp)) s₃) :
    ∃ s', machine.Completes p (execve kernelEnd p (some ip) argv) s (some argv.length) s' := by
  have load : machine.Ends p (fun _ => False) (fun image s' => image = some (sz, sp) ∧ s' = s₃)
      (loadImage kernelEnd p pgdir ip (Ehdr.decode bytes) argv) s₁ :=
    System.Ends.bind (segments.ends (stack.ends ⟨rfl, rfl⟩))
  rcases load.completes with ⟨_, _, done, rfl, rfl⟩
  have imaged := Machine.Imaged.of_completes ready args init done
  have ends : machine.Ends p (fun _ => False) (fun result _ => result = some argv.length)
      (execve kernelEnd p (some ip) argv) s := by
    rw [execve, read]
    simp only [magic, ne_eq, not_true_eq_false, if_false]
    apply System.Ends.bind
    refine init.ends (System.Ends.bind (done.ends ?_))
    exact (imaged.switch ready).mono (fun _ => id) fun _ _ => And.left
  rcases ends.completes with ⟨_, s', result, rfl⟩
  exact ⟨s', result⟩

/-- A call that cannot load the segments fails. -/
theorem execve_fails {bytes : List UInt8} (ready : s.Ready kernelEnd p)
    (args : ∀ arg, arg ∈ argv → arg.length + 1 ≤ (s.proc p).sz)
    (read : readExactly ip 0 ehdrSize = some bytes) (magic : bytes.take 4 = ELFMAG)
    (init : machine.Completes p pgdirInit s pgdir s₁)
    (segments : machine.Completes p
      (loadSegments kernelEnd pgdir ip (programHeaders ip (Ehdr.decode bytes).e_phnum
        (toInt (Ehdr.decode bytes).e_phoff)) 0) s₁ none s₂) :
    ∃ s', machine.Completes p (execve kernelEnd p (some ip) argv) s none s' := by
  have load : machine.Ends p (fun _ => False) (fun image s' => image = none ∧ s' = s₂)
      (loadImage kernelEnd p pgdir ip (Ehdr.decode bytes) argv) s₁ :=
    System.Ends.bind (segments.ends (.ret ⟨rfl, rfl⟩))
  rcases load.completes with ⟨_, _, done, rfl, rfl⟩
  have imaged := Machine.Imaged.of_completes ready args init done
  have outside : ∀ height, (pgdir, height) ∉ ({((s.proc p).pgdir, 4)} : Set (Nat × Nat)) :=
    fun height => ready.keeps.not_root imaged.new
  have ends : machine.Ends p (fun _ => False) (fun result _ => result = none)
      (execve kernelEnd p (some ip) argv) s := by
    rw [execve, read]
    simp only [magic, ne_eq, not_true_eq_false, if_false]
    apply System.Ends.bind
    refine init.ends (System.Ends.bind (done.ends ?_))
    exact (bad_ends imaged.sound outside imaged.keeps).mono (fun _ => id) fun _ _ => And.left
  rcases ends.completes with ⟨_, s', result, rfl⟩
  exact ⟨s', result⟩

end Image

/-- A call of `execve` panics where the file, the strings and the free pages are not harmless. -/
theorem execve_ends (ready : s.Ready kernelEnd p)
    (args : ∀ arg, arg ∈ argv → arg.length + 1 ≤ (s.proc p).sz) :
    machine.Ends p (fun _ => ¬ Harmless file argv s.freeList.length)
      (fun result s' => Harmless file argv s.freeList.length ∧
        Executed kernelEnd p s argv result s')
      (execve kernelEnd p file argv) s := by
  have short : ∀ arg, arg ∈ argv → arg.length + 1 ≤ UADDR_SZ :=
    fun arg member => (args arg member).trans ready.size.le
  cases file with
  | none => exact .ret ⟨fun ip found => by (cases found), .refl ready⟩
  | some ip =>
      rw [execve]
      cases read : readExactly ip 0 ehdrSize with
      | none =>
          refine .ret ⟨?_, .refl ready⟩
          intro ip' same bytes got
          cases same
          rw [read] at got
          cases got
      | some bytes =>
          simp only
          by_cases magic : bytes.take 4 ≠ ELFMAG
          · rw [if_pos magic]
            refine .ret ⟨?_, .refl ready⟩
            intro ip' same bytes' got magic'
            cases same
            rw [read] at got
            cases got
            exact absurd magic' magic
          · rw [if_neg magic]
            have meaning : Harmless (some ip) argv s.freeList.length ↔
                0 < s.freeList.length ∧
                  SegmentsHarmless ip (StackHarmless argv)
                    (programHeaders ip (Ehdr.decode bytes).e_phnum
                      (toInt (Ehdr.decode bytes).e_phoff)) 0 (s.freeList.length - 1) := by
              constructor
              · exact fun harmless => harmless ip rfl bytes read (not_not.mp magic)
              · intro harmless ip' same bytes' got _
                cases same
                rw [read] at got
                cases got
                exact harmless
            exact image_ends ready short meaning

/-! ## When `execve` returns -/

/-- The call fails, or it installs a new image. -/
def Returns (kernelEnd : Nat) (p : Pid) (file : Option Fs.File) (argv : List (List UInt8))
    (s : Machine Pid) : Prop :=
  ∃ result s', machine.Completes p (execve kernelEnd p file argv) s result s' ∧
    Executed kernelEnd p s argv result s'

/-- `execve` returns exactly where the file, the strings and the free pages are harmless. -/
theorem execve_returns_iff (ready : s.Ready kernelEnd p)
    (args : ∀ arg, arg ∈ argv → arg.length + 1 ≤ (s.proc p).sz) :
    Returns kernelEnd p file argv s ↔ Harmless file argv s.freeList.length := by
  have ends : machine.Ends p _ _ (execve kernelEnd p file argv) s := execve_ends ready args
  constructor
  · rintro ⟨result, s', done, _⟩
    exact (ends.of_completes done).1
  · intro harmless
    have completes : machine.Ends p (fun _ => False)
        (fun result s' => Executed kernelEnd p s argv result s')
        (execve kernelEnd p file argv) s :=
      ends.mono (fun _ wrong => wrong harmless) fun _ _ executed => executed.2
    exact completes.completes

end Execve

/-! ## An executable without segments -/

/-- A process with an empty address space. -/
def caller : Machine Unit :=
  emptySpace.2.setProc () { emptySpace.2.proc () with pgdir := emptySpace.1, sz := PGSIZE }

theorem caller_ready : caller.Ready 1 () := by
  have sound : eightFree.Sound 1 := ⟨by decide, by decide⟩
  have first : machine.run () pgdirInit eightFree = some emptySpace :=
    (Option.some_get _).symm
  have built : Built 1 () emptySpace.2 [emptySpace.1] :=
    .pgdirInit (.start sound) (System.run_completes first)
  have single : trees [emptySpace.1] = {(emptySpace.1, 4)} := by
    rw [trees_cons]
    ext root
    simp [trees]
  have keeps := built.keeps.2
  rw [single] at keeps
  exact ⟨by decide, ⟨built.keeps.1.nodup, built.keeps.1.usable⟩, keeps, by decide⟩

/-- An executable file without segments. -/
def noSegments : Fs.File where
  type := 2
  major := 0
  minor := 0
  nlink := 1
  size := 64
  data k := ELFMAG.getD k 0

/-- The bytes of `"sh"`. -/
def sh : List UInt8 := [115, 104]

/-- The page table of the new image. -/
def started : Nat × Machine Unit := (machine.run () pgdirInit caller).get (by decide)

theorem caller_starts : machine.Completes () pgdirInit caller started.1 started.2 := by
  have first : machine.run () pgdirInit caller = some started := (Option.some_get _).symm
  exact System.run_completes first

theorem noSegments_completes {argv : List (List UInt8)}
    (args : ∀ arg, arg ∈ argv → arg.length + 1 ≤ (caller.proc ()).sz)
    (stack : ((machine.run () (userStack 1 () started.1 argv 0) started.2).map
      Prod.fst).join.isSome) :
    ∃ s', machine.Completes () (execve 1 () (some noSegments) argv) caller
      (some argv.length) s' := by
  rcases System.run_isSome stack with ⟨⟨sz, sp⟩, s₃, filled⟩
  have read : readExactly noSegments 0 ehdrSize =
      some ((readExactly noSegments 0 ehdrSize).get (by decide)) :=
    (Option.some_get _).symm
  have phnum : (Ehdr.decode ((readExactly noSegments 0 ehdrSize).get
      (by decide))).e_phnum = 0 := by decide
  refine execve_succeeds caller_ready args read (by decide) caller_starts ?_ filled
  rw [phnum]
  exact .refl _ _

theorem sh_inside : ∀ arg, arg ∈ [sh] → arg.length + 1 ≤ (caller.proc ()).sz := by
  decide

set_option maxRecDepth 20000 in
theorem sh_completes :
    ∃ s', machine.Completes () (execve 1 () (some noSegments) [sh]) caller (some 1) s' :=
  noSegments_completes sh_inside (by decide +kernel)

theorem execve_returns_iff_caller :
    Returns 1 () (some noSegments) [sh] caller ∧
      Harmless (some noSegments) [sh] caller.freeList.length := by
  rcases sh_completes with ⟨s', done⟩
  have returns : Returns 1 () (some noSegments) [sh] caller :=
    ⟨_, s', done, ((execve_ends caller_ready sh_inside).of_completes done).2⟩
  exact ⟨returns, (execve_returns_iff caller_ready sh_inside).mp returns⟩

/-! ## A segment at address 1 -/

/-- An executable file with one segment of one byte at address 1, and no byte of it. -/
def misaligned : Fs.File where
  type := 2
  major := 0
  minor := 0
  nlink := 1
  size := 120
  data k :=
    (ELFMAG ++ List.replicate 28 0 ++ [64] ++ List.replicate 23 0 ++ [1] ++ List.replicate 7 0 ++
      [1] ++ List.replicate 15 0 ++ [1] ++ List.replicate 23 0 ++ [1]).getD k 0

/-- `uvm_load` panics, as the address and the offset differ within a page. -/
theorem not_execve_returns_misaligned :
    caller.Ready 1 () ∧ ¬ Returns 1 () (some misaligned) [] caller := by
  refine ⟨caller_ready, ?_⟩
  rintro ⟨result, s', done, _⟩
  have harmless := ((execve_ends caller_ready (by simp)).of_completes done).1
  have bytes : readExactly misaligned 0 ehdrSize =
      some ((readExactly misaligned 0 ehdrSize).get (by decide)) :=
    (Option.some_get _).symm
  rcases harmless misaligned rfl _ bytes (by decide) with ⟨_, segments⟩
  let ph : Phdr := { p_type := PT_LOAD, p_offset := 0, p_vaddr := 1, p_filesz := 0, p_memsz := 1 }
  have headers : programHeaders misaligned 1 64 = [some ph] := by decide
  have phnum : (Ehdr.decode ((readExactly misaligned 0 ehdrSize).get
      (by decide))).e_phnum = 1 := by decide
  have phoff : toInt (Ehdr.decode ((readExactly misaligned 0 ehdrSize).get
      (by decide))).e_phoff = 64 := by decide
  have free : caller.freeList.length = 7 := by decide
  rw [phnum, phoff, headers, free] at segments
  have allocated : Allocated ph 0 (7 - 1) := ⟨by decide, by decide, by decide, by decide⟩
  have aligned := (segments allocated).1.1
  cases aligned

end PiKernel.Vm
