import PiKernel.Conc.Alone
import PiKernel.Vm.Rules

/-!
# One process running alone

The rules of `Vm.Rules` hold for a process that no other process interrupts.  In
its hands are then all pages which are not on the free list.
-/

namespace PiKernel.Vm

open PiKernel.Conc
open PiKernel.Conc.Prog (perform)

variable {Pid : Type}

namespace Machine

/-- The free list holds pages that `kfree` accepts, each once. -/
structure Sound (kernelEnd : Nat) (s : Machine Pid) : Prop where
  nodup : s.freeList.Nodup
  usable : ∀ x, x ∈ s.freeList → Usable kernelEnd x

/-- The pages that are not free, and the trapframe of the process. -/
def view (kernelEnd : Nat) (p : Pid) (s : Machine Pid) : Heap kernelEnd where
  page x := if Usable kernelEnd x ∧ x ∉ s.freeList then some (s.mem x) else none
  usable x owned := by
    split at owned
    · exact And.left ‹_›
    · cases owned
  supply := some s.freeList.length
  tf := (s.proc p).tf

/-- Only the trapframe of the process is different in the process table. -/
structure Framed (p : Pid) (s s' : Machine Pid) : Prop where
  other : ∀ q, q ≠ p → s'.proc q = s.proc q
  self : s'.proc p = { s.proc p with tf := (s'.proc p).tf }
  lock : s'.lock = s.lock

variable {kernelEnd : Nat} {p : Pid} {s s' s'' : Machine Pid} {x : Nat} {page : Page}

theorem Framed.of_eq (proc : s'.proc = s.proc) (lock : s'.lock = s.lock) : Framed p s s' := by
  constructor
  · intro q _
    rw [proc]
  · rw [proc]
  · exact lock

theorem Framed.refl : Framed p s s :=
  .of_eq rfl rfl

theorem Framed.trans (first : Framed p s s') (second : Framed p s' s'') : Framed p s s'' := by
  constructor
  · intro q other
    exact (second.other q other).trans (first.other q other)
  · rw [second.self, first.self]
  · exact second.lock.trans first.lock

theorem view_page_eq_some (here : (s.view kernelEnd p).page x = some page) :
    Usable kernelEnd x ∧ x ∉ s.freeList ∧ s.mem x = page := by
  simp only [view] at here
  split at here
  · exact ⟨And.left ‹_›, And.right ‹_›, Option.some.inj here⟩
  · cases here

theorem view_page (usable : Usable kernelEnd x) (taken : x ∉ s.freeList) :
    (s.view kernelEnd p).page x = some (s.mem x) :=
  if_pos ⟨usable, taken⟩

theorem view_page_free (free : x ∈ s.freeList) : (s.view kernelEnd p).page x = none :=
  if_neg fun taken => taken.2 free

theorem mem_freeList_iff (p : Pid) (sound : s.Sound kernelEnd) :
    x ∈ s.freeList ↔ Usable kernelEnd x ∧ (s.view kernelEnd p).page x = none := by
  constructor
  · intro free
    exact ⟨sound.usable x free, view_page_free free⟩
  · rintro ⟨usable, none⟩
    by_contra taken
    rw [view_page usable taken] at none
    cases none

theorem view_setMem {page' : Page} (here : (s.view kernelEnd p).page x = some page)
    (usable : Usable kernelEnd x) :
    (s.setMem x page').view kernelEnd p = (s.view kernelEnd p).put x page' usable := by
  rcases view_page_eq_some here with ⟨_, taken, _⟩
  ext1
  · funext y
    by_cases same : y = x
    · subst same
      rw [Heap.put_page_same]
      exact (if_pos ⟨usable, taken⟩).trans (congrArg some (Function.update_self _ _ _))
    · rw [Heap.put_page_other same]
      simp only [view, setMem, Function.update_of_ne same]
  · rfl
  · rfl

theorem view_free (owned : x ∈ (s.view kernelEnd p).owned) :
    view kernelEnd p { s with freeList := x :: s.freeList } = (s.view kernelEnd p).drop x := by
  ext1
  · funext y
    by_cases same : y = x
    · subst same
      rw [Heap.drop_page_same]
      exact view_page_free (s := { s with freeList := y :: s.freeList })
        (List.mem_cons_self ..)
    · rw [Heap.drop_page_other same]
      simp [view, same]
  · rfl
  · rfl

theorem view_alloc {rest : List Nat} (sound : s.Sound kernelEnd)
    (list : s.freeList = x :: rest) (usable : Usable kernelEnd x) :
    view kernelEnd p { s with freeList := rest } =
      (s.view kernelEnd p).take x (s.mem x) usable := by
  have nodup := sound.nodup
  rw [list, List.nodup_cons] at nodup
  ext1
  · funext y
    by_cases same : y = x
    · subst same
      rw [Heap.take_page_same]
      exact if_pos ⟨usable, nodup.1⟩
    · rw [Heap.take_page_other same]
      simp [view, list, same]
  · simp [view, Heap.take, list]
  · rfl

theorem Sound.setMem (sound : s.Sound kernelEnd) : (s.setMem x page).Sound kernelEnd :=
  ⟨sound.nodup, sound.usable⟩

end Machine

variable [DecidableEq Pid]

/-- Programs over physical memory, one at a time. -/
def machine : System (Act Pid) Pid (Machine Pid) where
  exec := exec
  task _ _ _ := False

/-- The program keeps the free list sound and the process table as it is, but for `tf`. -/
def Alone (kernelEnd : Nat) (p : Pid) (mayPanic : String → Prop) {α : Type}
    (program : Prog (Act Pid) α) (post : α → Heap kernelEnd → Prop) (s : Machine Pid) :
    Prop :=
  machine.Ends p mayPanic
    (fun value s' => s'.Sound kernelEnd ∧ s.Framed p s' ∧
      post value (s'.view kernelEnd p)) program s

variable {kernelEnd : Nat} {p : Pid} {mayPanic : String → Prop} {s : Machine Pid} {x : Nat}
  {page page' : Page}

/-- An action that changes a page which is not free. -/
theorem alone_setMem {action : Act Pid Unit} {post : Unit → Heap kernelEnd → Prop}
    (sound : s.Sound kernelEnd) (here : (s.view kernelEnd p).page x = some page)
    (effect : exec action p s = .done () (s.setMem x page'))
    (next : post () ((s.view kernelEnd p).put x page' (Heap.usable_of_page here))) :
    Alone kernelEnd p mayPanic (perform action) post s := by
  rw [← Machine.view_setMem here (Heap.usable_of_page here)] at next
  exact .perform effect ⟨sound.setMem, .of_eq rfl rfl, next⟩

theorem alone_free {post : Unit → Heap kernelEnd → Prop} (sound : s.Sound kernelEnd)
    (owned : x ∈ (s.view kernelEnd p).owned) (next : post () ((s.view kernelEnd p).drop x)) :
    Alone kernelEnd p mayPanic (perform (.free x)) post s := by
  rw [← Machine.view_free owned] at next
  refine .perform rfl ⟨⟨?_, ?_⟩, .of_eq rfl rfl, next⟩
  · rcases Heap.mem_owned.mp owned with ⟨page, here⟩
    exact List.nodup_cons.mpr ⟨(Machine.view_page_eq_some here).2.1, sound.nodup⟩
  · intro y free
    rcases List.mem_cons.mp free with rfl | old
    · exact (s.view kernelEnd p).usable y owned
    · exact sound.usable y old

theorem alone_bind {α β : Type} {program : Prog (Act Pid) α} {next : α → Prog (Act Pid) β}
    {post : β → Heap kernelEnd → Prop}
    (first : Alone kernelEnd p mayPanic program
      (fun value h' => ∀ s' : Machine Pid, s'.Sound kernelEnd → s'.view kernelEnd p = h' →
        Alone kernelEnd p mayPanic (next value) post s') s) :
    Alone kernelEnd p mayPanic (program >>= next) post s := by
  apply System.Ends.bind
  refine first.mono (fun _ => id) ?_
  rintro value s' ⟨sound', framed, later⟩
  refine (later s' sound' rfl).mono (fun _ => id) ?_
  rintro value' s'' ⟨sound'', framed', holds⟩
  exact ⟨sound'', framed.trans framed', holds⟩

theorem alone_alloc {post : Option Nat → Heap kernelEnd → Prop} (sound : s.Sound kernelEnd)
    (none : s.freeList = [] → post none (s.view kernelEnd p))
    (some : ∀ x usable, (s.view kernelEnd p).page x = .none → s.freeList ≠ [] →
      post (some x) ((s.view kernelEnd p).take x (s.mem x) usable)) :
    Alone kernelEnd p mayPanic (perform .alloc) post s := by
  cases list : s.freeList with
  | nil =>
      have effect : exec .alloc p s = .done .none s := by simp [exec, list]
      exact .perform effect ⟨sound, .refl, none list⟩
  | cons x rest =>
      have member : x ∈ s.freeList := by simp [list]
      have usable := sound.usable x member
      have nodup := sound.nodup
      rw [list, List.nodup_cons] at nodup
      have taken := some x usable (Machine.view_page_free member) (by simp [list])
      rw [← Machine.view_alloc sound list usable] at taken
      have effect : exec .alloc p s = .done (Option.some x) { s with freeList := rest } := by
        simp [exec, list]
      refine .perform effect ⟨⟨nodup.2, ?_⟩, .of_eq rfl rfl, taken⟩
      intro y free
      exact sound.usable y (by simp [list, free])

/-- Only setters of the process table change it. -/
theorem proc_leaves {α : Type} {program : Prog (Act Pid) α} (only : program.Only Act.OnMemory) :
    machine.Leaves p (fun _ s' => s'.proc = s.proc) program s := by
  let I : Machine Pid → Prop := fun s' => s'.proc = s.proc
  have step : ∀ {β : Type} (action : Act Pid β) (value : β) (s₁ s₂ : Machine Pid),
      action.OnMemory → I s₁ → exec action p s₁ = .done value s₂ → I s₂ :=
    fun _ _ _ _ kind same effect => (proc_onMemory kind effect).trans same
  exact System.Leaves.of_only only step rfl

variable (kernelEnd p mayPanic)

/-- The rules hold for a process running alone. -/
def aloneRules : Rules kernelEnd Pid where
  wp program h post := ∀ s : Machine Pid, s.Sound kernelEnd → s.view kernelEnd p = h →
    Alone kernelEnd p mayPanic program post s
  self := p
  live := ∅
  mayPanic := mayPanic
  ret holds s sound viewed := .ret ⟨sound, .refl, viewed ▸ holds⟩
  panic allowed s _ _ := .panic allowed
  bind first s sound viewed := alone_bind (first s sound viewed)
  mono first implies s sound viewed := by
    refine (first s sound viewed).mono (fun _ => id) ?_
    rintro value s' ⟨sound', framed, holds⟩
    exact ⟨sound', framed, implies value _ holds⟩
  both first second s sound viewed := by
    refine ((first s sound viewed).both (second s sound viewed)).mono (fun _ => And.left) ?_
    rintro value s' ⟨⟨sound', framed, holds⟩, _, _, holds'⟩
    exact ⟨sound', framed, holds, holds'⟩
  untouched only holds s sound viewed := by
    subst viewed
    refine ((holds s sound rfl).leaving (proc_leaves only)).mono (fun _ => id) ?_
    rintro value s' ⟨⟨sound', framed, holds'⟩, same⟩
    exact ⟨sound', framed, holds' (congrArg (fun proc => (proc p).tf) same)⟩
  alloc none some s sound viewed := by
    subst viewed
    apply alone_alloc sound
    · intro empty
      exact none (Or.inr (by simp [Machine.view, empty]))
    · intro x usable new full
      exact some x _ usable new (by simp [Machine.view, full])
  free owned keeps next s sound viewed := by
    subst viewed
    exact alone_free sound owned next
  release {h post x t i page} here owned other inside bottom keeps next s sound viewed := by
    subst viewed
    apply alone_bind
    apply alone_free sound owned
    intro s' sound' viewed'
    have here' : (s'.view kernelEnd p).page t = some page := by
      rw [viewed', Heap.drop_page_other other.symm]
      exact here
    have effect : exec (.setWord t i 0) p s' =
        .done () (s'.setMem t (Vm.setWord page i 0)) := by
      rw [← (Machine.view_page_eq_some here').2.2]
      rfl
    apply alone_setMem sound' here' effect
    simp only [viewed']
    rw [Heap.put_drop other]
    exact next
  word here next s sound viewed := by
    subst viewed
    rw [← (Machine.view_page_eq_some here).2.2] at next
    exact .perform rfl ⟨sound, .refl, next⟩
  fill here keeps next s sound viewed := by
    subst viewed
    exact alone_setMem sound here rfl next
  setWord here keeps next s sound viewed := by
    subst viewed
    apply alone_setMem sound here _ next
    rw [← (Machine.view_page_eq_some here).2.2]
    rfl
  copy {h post dst src page} here next s sound viewed := by
    subst viewed
    apply alone_setMem sound here rfl (next (s.mem src) _).2
    by_cases taken : Usable kernelEnd src ∧ src ∉ s.freeList
    · exact Or.inl (if_pos taken)
    · exact Or.inr (if_neg taken)
  write here keeps next s sound viewed := by
    subst viewed
    apply alone_setMem sound here _ next
    rw [← (Machine.view_page_eq_some here).2.2]
    rfl
  writeNothing {h post x off} next s sound viewed := by
    subst viewed
    have same : s.setMem x (Bytes.splice (s.mem x) off []) = s := by
      have unchanged : Bytes.splice (s.mem x) off [] = s.mem x := by
        funext index
        simp [Bytes.splice]
      rw [Machine.setMem, unchanged, Function.update_eq_self]
    exact .perform (congrArg (Outcome.done ()) same) ⟨sound, .refl, next⟩
  proc next s sound viewed := by
    subst viewed
    exact .perform rfl ⟨sound, .refl, next _ rfl⟩
  setTf {h post tf} keeps next s sound viewed := by
    subst viewed
    let after := s.setProc p { s.proc p with tf := tf }
    have here : after.proc p = { s.proc p with tf := tf } := Function.update_self _ _ _
    refine .perform (rfl : exec (.setTf p tf) p s = .done () after)
      ⟨⟨sound.nodup, sound.usable⟩, ?_, ?_⟩
    · constructor
      · intro q other
        exact Function.update_of_ne other _ _
      · rw [here]
      · rfl
    · have viewed : after.view kernelEnd p = { s.view kernelEnd p with tf := tf } := by
        ext1
        · rfl
        · rfl
        · exact congrArg Proc.tf here
      rw [viewed]
      exact next

variable {kernelEnd p mayPanic} {α : Type} {program : Prog (Act Pid) α} {value : α}
  {s s' : Machine Pid} {post : α → Heap kernelEnd → Prop}

theorem Machine.Sound.ends (sound : s.Sound kernelEnd)
    (rule : (aloneRules kernelEnd p mayPanic).wp program (s.view kernelEnd p) post) :
    machine.Ends p mayPanic
      (fun value s' => s'.Sound kernelEnd ∧ s.Framed p s' ∧ post value (s'.view kernelEnd p))
      program s :=
  rule s sound rfl

/-- A program that completes leaves what the rules promise. -/
theorem Machine.Sound.of_completes (sound : s.Sound kernelEnd)
    (done : machine.Completes p program s value s')
    (rule : (aloneRules kernelEnd p fun _ => True).wp program (s.view kernelEnd p) post) :
    s'.Sound kernelEnd ∧ post value (s'.view kernelEnd p) := by
  rcases System.Ends.of_completes (sound.ends rule) done with ⟨sound', _, holds⟩
  exact ⟨sound', holds⟩

/-- A program without panics completes. -/
theorem Machine.Sound.completes (sound : s.Sound kernelEnd)
    (rule : (aloneRules kernelEnd p fun _ => False).wp program (s.view kernelEnd p) post) :
    ∃ value s', machine.Completes p program s value s' ∧ s'.Sound kernelEnd ∧
      post value (s'.view kernelEnd p) := by
  rcases System.Ends.completes (sound.ends rule) with ⟨value, s', done, sound', _, holds⟩
  exact ⟨value, s', done, sound', holds⟩

end PiKernel.Vm
