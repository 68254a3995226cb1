import PiKernel.Vm.Heap
import PiKernel.Vm.Untouched

/-!
# A program logic for page tables

The rules that the code of `vm.c` is verified with.  `live` are the trees which
have to be in order before and after every access: the address space in which the
process runs, and its kernel stack.
-/

namespace PiKernel.Vm

open PiKernel.Conc
open PiKernel.Conc.Prog (perform)

/-- The weakest preconditions of the actions of one process on its heap. -/
structure Rules (kernelEnd : Nat) (Pid : Type) where
  wp : {α : Type} → Prog (Act Pid) α → Heap kernelEnd →
    (α → Heap kernelEnd → Prop) → Prop
  self : Pid
  live : Set (Nat × Nat)
  mayPanic : String → Prop
  ret : ∀ {α : Type} {value : α} {h post}, post value h → wp (.ret value) h post
  panic : ∀ {α : Type} {message h} {post : α → Heap kernelEnd → Prop},
    mayPanic message → wp (.panic message) h post
  bind : ∀ {α β : Type} {program : Prog (Act Pid) α} {next : α → Prog (Act Pid) β}
    {h post},
    wp program h (fun value h' => wp (next value) h' post) → wp (program >>= next) h post
  mono : ∀ {α : Type} {program : Prog (Act Pid) α} {h} {post post' : α → _ → Prop},
    wp program h post → (∀ value h', post value h' → post' value h') →
      wp program h post'
  /-- A program has one outcome. -/
  both : ∀ {α : Type} {program : Prog (Act Pid) α} {h} {post post' : α → _ → Prop},
    wp program h post → wp program h post' →
      wp program h fun value h' => post value h' ∧ post' value h'
  /-- Code that works on pages only leaves the trapframe alone. -/
  untouched : ∀ {α : Type} {program : Prog (Act Pid) α} {h} {post : α → _ → Prop},
    program.Only Act.OnMemory → wp program h (fun value h' => h'.tf = h.tf → post value h') →
      wp program h post
  alloc : ∀ {h post}, (h.supply = none ∨ h.supply = some 0 → post none h) →
    (∀ x page usable, h.page x = none → h.supply ≠ some 0 →
      post (some x) (h.take x page usable)) →
    wp (perform .alloc) h post
  free : ∀ {h post x}, x ∈ h.owned → (h.drop x).Keeps live → post () (h.drop x) →
    wp (perform (.free x)) h post
  /-- A page is freed before the entry which leads to it is cleared. -/
  release : ∀ {h post x t i page} (here : h.page t = some page), x ∈ h.owned → x ≠ t →
    i < ENTRYSZ →
    (∀ r height, (r, height) ∈ live → ∀ path : List Nat, path.length < height →
      h.links.follow r path = some t → path.length + 1 = height) →
    ((h.put t (setWord page i 0) (Heap.usable_of_page here)).drop x).Keeps live →
    post () ((h.put t (setWord page i 0) (Heap.usable_of_page here)).drop x) →
    wp (do perform (.free x); perform (.setWord t i 0)) h post
  word : ∀ {h post x page} {i : Nat}, h.page x = some page → post (Vm.word page i) h →
    wp (perform (.word x i)) h post
  fill : ∀ {h post x page byte} (here : h.page x = some page),
    (h.put x (filled byte) (Heap.usable_of_page here)).Keeps live →
    post () (h.put x (filled byte) (Heap.usable_of_page here)) →
    wp (perform (.fill x byte)) h post
  setWord : ∀ {h post x page i w} (here : h.page x = some page),
    (h.put x (Vm.setWord page i w) (Heap.usable_of_page here)).Keeps live →
    post () (h.put x (Vm.setWord page i w) (Heap.usable_of_page here)) →
    wp (perform (.setWord x i w)) h post
  copy : ∀ {h post dst src page} (here : h.page dst = some page),
    (∀ page', h.page src = some page' ∨ h.page src = none →
      (h.put dst page' (Heap.usable_of_page here)).Keeps live ∧
        post () (h.put dst page' (Heap.usable_of_page here))) →
    wp (perform (.copy dst src)) h post
  write : ∀ {h post x page off bytes} (here : h.page x = some page),
    (h.put x (Bytes.splice page off bytes) (Heap.usable_of_page here)).Keeps live →
    post () (h.put x (Bytes.splice page off bytes) (Heap.usable_of_page here)) →
    wp (perform (.write x off bytes)) h post
  writeNothing : ∀ {h post x off}, post () h → wp (perform (.write x off [])) h post
  proc : ∀ {h} {post : Proc Pid → _ → Prop}, (∀ proc, proc.tf = h.tf → post proc h) →
    wp (perform (.proc self)) h post
  setTf : ∀ {h post tf}, h.Keeps live → post () { h with tf := tf } →
    wp (perform (.setTf self tf)) h post

namespace Rules

variable {kernelEnd : Nat} {Pid : Type} (R : Rules kernelEnd Pid)
  {h : Heap kernelEnd} {roots : Set (Nat × Nat)} {x y t i k level levels r height : Nat}
  {page : Page} {path : List Nat} {va : Nat} {α β : Type}

variable {R}

theorem seq {program : Prog (Act Pid) α} {next : α → Prog (Act Pid) β}
    {middle : α → Heap kernelEnd → Prop} {post : β → Heap kernelEnd → Prop}
    (first : R.wp program h middle)
    (second : ∀ value h', middle value h' → R.wp (next value) h' post) :
    R.wp (program >>= next) h post :=
  R.bind (R.mono first second)

/-- What is known of a program may be used to verify it once more. -/
theorem knowing {program : Prog (Act Pid) α} {known post : α → Heap kernelEnd → Prop}
    (first : R.wp program h known)
    (second : R.wp program h fun value h' => known value h' → post value h') :
    R.wp program h post :=
  R.mono (R.both first second) fun _ _ both => both.2 both.1

/-- A loop keeps an invariant that is indexed by the elements already done. -/
theorem forM {ι : Type} {body : ι → Prog (Act Pid) PUnit}
    (inv : List ι → Heap kernelEnd → Prop) (items : List ι)
    (step : ∀ before item after h, items = before ++ item :: after → inv before h →
      R.wp (body item) h fun _ h' => inv (before ++ [item]) h')
    (start : inv [] h) : R.wp (items.forM body) h fun _ h' => inv items h' := by
  suffices general : ∀ rest before h, items = before ++ rest → inv before h →
      R.wp (rest.forM body) h fun _ h' => inv items h' from general items [] h rfl start
  intro rest
  induction rest with
  | nil =>
      intro before h split holds
      rw [List.append_nil] at split
      exact R.ret (split ▸ holds)
  | cons item rest ih =>
      intro before h split holds
      change R.wp (body item >>= fun _ => rest.forM body) h _
      refine seq (step before item rest h split holds) ?_
      intro _ h' holds'
      exact ih (before ++ [item]) h' (by simp [split]) holds'

/-! ## `kalloc` and `kfree` -/

theorem kalloc {post : Option Nat → Heap kernelEnd → Prop} (keeps : h.Keeps R.live)
    (none : h.supply = none ∨ h.supply = some 0 → post none h)
    (some : ∀ x usable, h.page x = .none → h.supply ≠ .some 0 →
      post (.some x) (h.take x (filled 5) usable)) :
    R.wp kalloc h post := by
  apply R.bind
  apply R.alloc
  · intro empty
    exact R.ret (none empty)
  · intro x page usable new supply
    apply R.bind
    apply R.fill Heap.take_page_same
    · rw [Heap.take_put]
      exact (keeps.take new).mono (Set.subset_insert _ _)
    · rw [Heap.take_put]
      exact R.ret (some x usable new supply)

/-- Pages in the hands of a process pass the check of `kfree`. -/
theorem kfree_eq (owned : x ∈ h.owned) :
    (Vm.kfree kernelEnd x : Prog (Act Pid) Unit) = perform (.free x) := by
  rcases h.usable x owned with ⟨low, high⟩
  rw [Vm.kfree, if_neg]
  simp only [Bool.or_eq_true, decide_eq_true_eq]
  omega

theorem kfree {post : Unit → Heap kernelEnd → Prop} (owned : x ∈ h.owned)
    (keeps : (h.drop x).Keeps R.live) (next : post () (h.drop x)) :
    R.wp (kfree kernelEnd x) h post := by
  rw [kfree_eq owned]
  exact R.free owned keeps next

end Rules

end PiKernel.Vm
