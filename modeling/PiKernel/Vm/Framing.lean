import PiKernel.Vm.Rules

/-!
# Framing

A program whose pages are put beside other pages does what it does without them, and leaves
them as they are.  The rules are those of `Vm.Rules` for a process without live trees.
-/

namespace PiKernel.Vm

open PiKernel.Conc
open PiKernel.Conc.Prog (perform)

variable {kernelEnd : Nat} {Pid : Type}

namespace Heap

/-- The pages of `h` with those of `frame` beside them. -/
def join (h frame : Heap kernelEnd) : Heap kernelEnd where
  page x := (h.page x).or (frame.page x)
  usable x owned := by
    cases here : h.page x with
    | some page => exact h.usable x (by rw [here]; rfl)
    | none =>
        rw [here, Option.none_or] at owned
        exact frame.usable x owned
  supply := h.supply
  tf := h.tf

/-- No page is in both heaps. -/
def Apart (h frame : Heap kernelEnd) : Prop :=
  ∀ x, x ∈ frame.owned → h.page x = none

/-- The heap without its pages. -/
def bare (h : Heap kernelEnd) : Heap kernelEnd where
  page _ := none
  usable _ owned := by cases owned
  supply := h.supply
  tf := h.tf

variable {h h' frame : Heap kernelEnd} {x : Nat} {page : Page} {usable : Usable kernelEnd x}
  {tf : Trapframe}

theorem join_page : (h.join frame).page x = (h.page x).or (frame.page x) :=
  rfl

theorem bare_join : h.bare.join h = h := by
  ext1
  · funext x
    exact Option.none_or
  · rfl
  · rfl

theorem bare_apart : h.bare.Apart frame :=
  fun _ _ => rfl

theorem keeps_nothing : h.Keeps ∅ :=
  ⟨fun _ _ root => root.elim, fun _ _ root => root.elim⟩

theorem join_page_own (here : h.page x = some page) : (h.join frame).page x = some page := by
  rw [join_page, here, Option.some_or]

/-- The frame is still there. -/
theorem join_page_frame (apart : h.Apart frame) (here : frame.page x = some page) :
    (h.join frame).page x = some page := by
  rw [join_page, apart x (mem_owned.mpr ⟨page, here⟩), Option.none_or, here]

theorem join_page_none (none : (h.join frame).page x = none) :
    h.page x = .none ∧ frame.page x = .none :=
  Option.or_eq_none_iff.mp none

/-- A page of the heap is not in the frame. -/
theorem Apart.frame_none (apart : h.Apart frame) (here : h.page x = some page) :
    frame.page x = none := by
  by_contra some
  rw [apart x (Option.ne_none_iff_isSome.mp some)] at here
  cases here

theorem join_put : (h.put x page usable).join frame = (h.join frame).put x page usable := by
  ext1
  · funext y
    by_cases same : y = x
    · subst same
      rw [put_page_same, join_page_own put_page_same]
    · rw [put_page_other same, join_page, join_page, put_page_other same]
  · rfl
  · rfl

theorem join_take : (h.take x page usable).join frame = (h.join frame).take x page usable := by
  have put : (h.put x page usable).join frame = _ := join_put
  exact congrArg (fun (joined : Heap kernelEnd) =>
    { joined with supply := h.supply.map (· - 1) }) put

theorem join_drop (apart : h.Apart frame) (owned : x ∈ h.owned) :
    (h.drop x).join frame = (h.join frame).drop x := by
  rcases mem_owned.mp owned with ⟨page, here⟩
  ext1
  · funext y
    by_cases same : y = x
    · subst same
      rw [drop_page_same, join_page, drop_page_same, Option.none_or, apart.frame_none here]
    · rw [drop_page_other same, join_page, join_page, drop_page_other same]
  · rfl
  · rfl

theorem Apart.put (apart : h.Apart frame) (new : frame.page x = none) :
    (h.put x page usable).Apart frame := by
  intro y framed
  have other : y ≠ x := by
    rintro rfl
    rcases mem_owned.mp framed with ⟨page', there⟩
    rw [new] at there
    cases there
  rw [put_page_other other]
  exact apart y framed

theorem Apart.drop (apart : h.Apart frame) : (h.drop x).Apart frame := by
  intro y framed
  by_cases same : y = x
  · subst same
    exact drop_page_same
  · rw [drop_page_other same]
    exact apart y framed

/-- What is beside the frame is determined by the whole. -/
theorem join_injective (apart : h.Apart frame) (apart' : h'.Apart frame)
    (same : h.join frame = h'.join frame) : h = h' := by
  ext1
  · funext x
    by_cases framed : x ∈ frame.owned
    · rw [apart x framed, apart' x framed]
    · have none : frame.page x = none := Option.not_isSome_iff_eq_none.mp framed
      have equal : (h.page x).or (frame.page x) = (h'.page x).or (frame.page x) :=
        congrArg (fun joined : Heap kernelEnd => joined.page x) same
      rwa [none, Option.or_none, Option.or_none] at equal
  · have supply := congrArg Heap.supply same
    exact supply
  · have tf := congrArg Heap.tf same
    exact tf

end Heap

namespace Rules

open Heap

variable (R : Rules kernelEnd Pid) (frame : Heap kernelEnd)

/-- A program on pages beside the frame. -/
def Beside {α : Type} (program : Prog (Act Pid) α) (h : Heap kernelEnd)
    (post : α → Heap kernelEnd → Prop) : Prop :=
  h.Apart frame → R.wp program (h.join frame) fun value whole =>
    ∃ h' : Heap kernelEnd, whole = h'.join frame ∧ h'.Apart frame ∧ post value h'

variable {R frame}

/-- A page in the hands of the process gets new contents. -/
theorem Beside.of_put {h : Heap kernelEnd} {x : Nat} {page page' : Page}
    {post : Unit → Heap kernelEnd → Prop} (apart : h.Apart frame) (here : h.page x = some page)
    (next : post () (h.put x page' (usable_of_page here))) :
    ∃ h' : Heap kernelEnd, (h.join frame).put x page' (usable_of_page here) = h'.join frame ∧
      h'.Apart frame ∧ post () h' :=
  ⟨_, join_put.symm, apart.put (apart.frame_none here), next⟩

variable (R frame)

/-- The rules for programs that run beside the frame. -/
def framed (alone : R.live = ∅) : Rules kernelEnd Pid where
  wp program h post := R.Beside frame program h post
  self := R.self
  live := ∅
  mayPanic := R.mayPanic
  ret holds apart := R.ret ⟨_, rfl, apart, holds⟩
  panic allowed _ := R.panic allowed
  bind first apart := by
    refine R.bind (R.mono (first apart) ?_)
    rintro value _ ⟨h', rfl, apart', next⟩
    exact next apart'
  mono first implies apart := by
    refine R.mono (first apart) ?_
    rintro value _ ⟨h', rfl, apart', holds⟩
    exact ⟨h', rfl, apart', implies value h' holds⟩
  both first second apart := by
    refine R.mono (R.both (first apart) (second apart)) ?_
    rintro value _ ⟨⟨h₁, rfl, apart₁, holds₁⟩, h₂, same, apart₂, holds₂⟩
    cases join_injective apart₁ apart₂ same
    exact ⟨h₁, rfl, apart₁, holds₁, holds₂⟩
  untouched only holds apart := by
    refine R.untouched only (R.mono (holds apart) ?_)
    rintro value _ ⟨h', rfl, apart', implies⟩ same
    exact ⟨h', rfl, apart', implies same⟩
  alloc {h post} none some apart := by
    apply R.alloc
    · intro empty
      exact ⟨h, rfl, apart, none empty⟩
    · intro x page usable new full
      have absent := join_page_none new
      have apart' : (h.put x page usable).Apart frame := apart.put absent.2
      exact ⟨_, join_take.symm, apart', some x page usable absent.1 full⟩
  free {h post x} owned keeps next apart := by
    rcases mem_owned.mp owned with ⟨page, here⟩
    apply R.free (mem_owned.mpr ⟨page, join_page_own here⟩)
    · rw [alone]
      exact keeps_nothing
    · exact ⟨_, (join_drop apart owned).symm, apart.drop, next⟩
  release {h post x t i page} here owned other inside bottom keeps next apart := by
    rcases mem_owned.mp owned with ⟨page', here'⟩
    apply R.release (join_page_own here) (mem_owned.mpr ⟨page', join_page_own here'⟩) other inside
    · rw [alone]
      exact fun _ _ root => root.elim
    · rw [alone]
      exact keeps_nothing
    · have cleared : (h.put t (Vm.setWord page i 0) (usable_of_page here)).Apart frame :=
        apart.put (apart.frame_none here)
      have still : x ∈ (h.put t (Vm.setWord page i 0) (usable_of_page here)).owned := by
        rw [mem_owned]
        exact ⟨page', (put_page_other other).trans here'⟩
      refine ⟨_, ?_, cleared.drop, next⟩
      rw [join_drop cleared still, join_put]
  word here next apart := R.word (join_page_own here) ⟨_, rfl, apart, next⟩
  fill here _ next apart := R.fill (join_page_own here)
    (by rw [alone]; exact keeps_nothing)
    (Beside.of_put apart here next)
  setWord here _ next apart := R.setWord (join_page_own here)
    (by rw [alone]; exact keeps_nothing)
    (Beside.of_put apart here next)
  copy {h post dst src page} here next apart := by
    apply R.copy (join_page_own here)
    intro page' source
    constructor
    · rw [alone]
      exact keeps_nothing
    · apply Beside.of_put apart here
      refine (next page' ?_).2
      cases own : h.page src with
      | none => exact Or.inr rfl
      | some own' =>
          rw [join_page_own own] at source
          rcases source with same | absent
          · exact Or.inl same
          · cases absent
  write here _ next apart := R.write (join_page_own here)
    (by rw [alone]; exact keeps_nothing)
    (Beside.of_put apart here next)
  writeNothing next apart := R.writeNothing ⟨_, rfl, apart, next⟩
  proc next apart := R.proc fun proc tf => ⟨_, rfl, apart, next proc tf⟩
  setTf {h post tf} _ next apart := R.setTf
    (by rw [alone]; exact keeps_nothing)
    ⟨{ h with tf := tf }, rfl, apart, next⟩

end Rules

end PiKernel.Vm
