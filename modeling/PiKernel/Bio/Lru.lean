import PiKernel.Base.Linked
import PiKernel.Bio.Coherence

/-!
# The list of buffers

The pointers behind the field `mru` of `Cache`: `bcache.head` and the buffers form a circular
doubly linked list, which `binit` builds, `bget` walks in both directions, and `brelse` splices.

Any processes read and release buffers, write them through, and pin them in the log.  The list
then stays a ring of all buffers, in the order in which their last references were given up.
-/

namespace PiKernel.Bio

open PiKernel.Conc
open PiKernel.Conc.Prog (perform)

/-! ## The pointers -/

/-- A `struct buf`: the head of the list, or a buffer. -/
inductive Buf where
  | head
  | buf (i : Fin NBUF)
  deriving DecidableEq

/-- The fields `next` and `prev` of every `struct buf`. -/
structure Links where
  next : Buf → Buf
  prev : Buf → Buf

namespace Links

def setNext (l : Links) (b target : Buf) : Links :=
  { l with next := Function.update l.next b target }

def setPrev (l : Links) (b target : Buf) : Links :=
  { l with prev := Function.update l.prev b target }

/-- Put `b` behind the head. -/
def insert (l : Links) (b : Buf) : Links :=
  let l := l.setNext b (l.next .head)
  let l := l.setPrev b .head
  let l := l.setPrev (l.next .head) b
  l.setNext .head b

/-- Link the neighbours of `b` to each other. -/
def unlink (l : Links) (b : Buf) : Links :=
  let l := l.setPrev (l.next b) (l.prev b)
  l.setNext (l.prev b) (l.next b)

/-- Create circular doubly linked list of buffers. -/
def binit (l : Links) : Links :=
  let l := l.setPrev .head .head
  let l := l.setNext .head .head
  (List.finRange NBUF).foldl (fun l i => l.insert (.buf i)) l

variable {l : Links} {i : Fin NBUF} {order before after : List (Fin NBUF)}

/-- The list visits the buffers in the given order. -/
def Visits (l : Links) (order : List (Fin NBUF)) : Prop :=
  Ring l.next l.prev .head (order.map .buf)

theorem buf_not_mem (new : i ∉ order) : Buf.buf i ∉ Buf.head :: order.map .buf := by
  intro member
  rcases List.mem_cons.mp member with impossible | listed
  · cases impossible
  · rcases List.mem_map.mp listed with ⟨j, here, same⟩
    cases same
    exact new here

theorem Visits.insert (visits : l.Visits order) (new : i ∉ order) :
    (l.insert (.buf i)).Visits (i :: order) := by
  have pushed := Ring.push visits (buf_not_mem new)
  have first : Function.update l.next (.buf i) (l.next .head) .head = l.next .head :=
    Function.update_of_ne (fun impossible => by cases impossible) ..
  have same : l.insert (.buf i) =
      ⟨Function.update (Function.update l.next (.buf i) (l.next .head)) .head (.buf i),
        Function.update (Function.update l.prev (.buf i) .head) (l.next .head) (.buf i)⟩ := by
    simp only [Links.insert, setNext, setPrev, first]
  rw [same]
  exact pushed

theorem Visits.unlink (visits : l.Visits (before ++ i :: after)) :
    (l.unlink (.buf i)).Visits (before ++ after) := by
  have ring := visits
  rw [Visits, List.map_append, List.map_cons] at ring
  have apart : Buf.buf i ≠ l.next (.buf i) := by
    intro loop
    have next := (Segment.append_iff.mp ring.segment).2.next_mem
    have nodup := (List.nodup_append.mp (List.nodup_cons.mp ring.nodup).2).2.1
    rw [← loop] at next
    rcases List.mem_cons.mp next with impossible | again
    · cases impossible
    · exact (List.nodup_cons.mp nodup).1 again
  have same : l.unlink (.buf i) =
      ⟨Function.update l.next (l.prev (.buf i)) (l.next (.buf i)),
        Function.update l.prev (l.next (.buf i)) (l.prev (.buf i))⟩ := by
    simp only [Links.unlink, setNext, setPrev, Function.update_of_ne apart]
  rw [same, Visits, List.map_append]
  exact ring.unlink

/-- The buffers in the order of the insertions, the last one first. -/
theorem Visits.fold {items : List (Fin NBUF)} (visits : l.Visits order)
    (nodup : (items.reverse ++ order).Nodup) :
    (items.foldl (fun l i => l.insert (.buf i)) l).Visits (items.reverse ++ order) := by
  induction items generalizing l order with
  | nil => exact visits
  | cons i items ih =>
      rw [List.reverse_cons, List.append_assoc] at nodup ⊢
      have new := List.nodup_cons.mp (List.nodup_append.mp nodup).2.1
      exact ih (visits.insert new.1) nodup

theorem binit_visits : l.binit.Visits (List.finRange NBUF).reverse := by
  have empty : ((l.setPrev .head .head).setNext .head .head).Visits [] := by
    apply Ring.empty
    · exact Function.update_self Buf.head Buf.head l.next
    · exact Function.update_self Buf.head Buf.head l.prev
  have nodup : ((List.finRange NBUF).reverse ++ []).Nodup := by
    rw [List.append_nil]
    exact List.nodup_reverse.mpr (List.nodup_finRange NBUF)
  have all := empty.fold nodup
  rw [List.append_nil] at all
  exact all

theorem Visits.nodup (visits : l.Visits order) : order.Nodup :=
  List.Nodup.of_map _ (List.nodup_cons.mp (Ring.nodup visits)).2

/-- Take `b` out of the list and put it behind the head. -/
def toFront (l : Links) (b : Buf) : Links :=
  (l.unlink b).insert b

theorem Visits.toFront (visits : l.Visits order) (listed : i ∈ order) :
    (l.toFront (.buf i)).Visits (i :: order.erase i) := by
  have nodup := visits.nodup
  rcases List.append_of_mem listed with ⟨before, after, rfl⟩
  have outside : i ∉ before := by
    intro early
    exact (List.nodup_append.mp nodup).2.2 i early i List.mem_cons_self rfl
  rw [List.erase_append_right _ outside, List.erase_cons_head]
  apply visits.unlink.insert
  exact (List.nodup_cons.mp (List.nodup_middle.mp nodup)).1

end Links

/-! ## The critical sections on `bcache.lock` -/

variable {Pid : Type} [DecidableEq Pid]

/--
The cache with the pointers of its list.  `released` and `clock` are history: when the reference
count of a buffer last dropped to zero, and how often that has happened to any buffer.
-/
structure Bcache (Pid : Type) extends Cache Pid, Links where
  released : Fin NBUF → Option Nat
  clock : Nat

namespace Bcache

variable (s : Bcache Pid) (p : Pid) (i : Fin NBUF) (dev blockno : Nat)

/-- `b` is the head, or a buffer that passes the test. -/
def passes (test : Fin NBUF → Bool) : Buf → Bool
  | .head => false
  | .buf i => test i

/-- The buffer at which a loop over the list stops. -/
def stop : Option Buf → Option (Fin NBUF)
  | some (.buf i) => some i
  | _ => none

/-- The first loop of `bget` goes forth from `head.next`. -/
def findLoop : Option (Fin NBUF) :=
  stop (search s.next .head
    (passes fun i => s.dev i == dev && s.blockno i == blockno) (NBUF + 1) (s.next .head))

/-- The second loop goes back from `head.prev`. -/
def spareLoop : Option (Fin NBUF) :=
  stop (search s.prev .head
    (passes fun i => s.refcnt i == 0 && !s.dirty i) (NBUF + 1) (s.prev .head))

def bget : Option (Fin NBUF) × Bcache Pid :=
  match s.findLoop dev blockno with
  | some i => (some i, { s with toCache := s.toCache.ref p i })
  | none =>
      match s.spareLoop with
      | some i => (some i, { s with toCache := s.toCache.recycle p i dev blockno })
      | none => (none, s)

/-- The reference count of the buffer has dropped to zero: this is history. -/
def noteReleased : (Fin NBUF → Option Nat) × Nat :=
  if (s.toCache.unref p i).refcnt i = 0 then
    (Function.update s.released i (some s.clock), s.clock + 1)
  else
    (s.released, s.clock)

/-- The critical section of `brelse`. -/
def unref : Bcache Pid where
  toCache := s.toCache.unref p i
  toLinks := if s.refcnt i - 1 = 0 then s.toLinks.toFront (.buf i) else s.toLinks
  released := (s.noteReleased p i).1
  clock := (s.noteReleased p i).2

/-- The effect of every action; only two of them use the list. -/
def exec : {β : Type} → Act β → Pid → Bcache Pid → Outcome β (Bcache Pid)
  | _, .bget dev blockno, p, s =>
      .done (s.bget p dev blockno).1 (s.bget p dev blockno).2
  | _, .unref i, p, s => .done () (s.unref p i)
  | _, action, p, s => (Bio.exec action p s.toCache).map fun cache => { s with toCache := cache }

/-- The buffer `j` has been released after `i`, or `i` has never been released. -/
def Later (j i : Fin NBUF) : Prop :=
  ∀ t, s.released i = some t → ∃ t', s.released j = some t' ∧ t < t'

/-- No process refers to the buffer, and its data is not waiting for the log. -/
def Unused : Prop :=
  s.refcnt i = 0 ∧ s.dirty i = false

end Bcache

/-! ## What every step keeps -/

variable [Fintype Pid]

/-- The list is a ring of all buffers, the last one given up first. -/
structure Bcache.Inv (s : Bcache Pid) : Prop where
  visits : s.toLinks.Visits s.mru
  all : ∀ i, i ∈ s.mru
  sorted : s.mru.Pairwise s.Later
  past : ∀ i t, s.released i = some t → t < s.clock
  refcnt : ∀ i, s.refcnt i = s.references i

namespace Bcache.Inv

variable {s : Bcache Pid} {p : Pid} {i j : Fin NBUF} {dev blockno : Nat}

omit [DecidableEq Pid] in
theorem perm (inv : s.Inv) : s.mru.Perm (List.finRange NBUF) := by
  apply (List.perm_ext_iff_of_nodup inv.visits.nodup (List.nodup_finRange NBUF)).mpr
  exact fun i => iff_of_true (inv.all i) (List.mem_finRange i)

omit [DecidableEq Pid] in
theorem length_lt (inv : s.Inv) : (s.mru.map Buf.buf).length < NBUF + 1 := by
  rw [List.length_map, inv.perm.length_eq, List.length_finRange]
  exact Nat.lt_succ_self NBUF

theorem stop_find (order : List (Fin NBUF)) (test : Fin NBUF → Bool) :
    Bcache.stop ((order.map .buf).find? (Bcache.passes test)) = order.find? test := by
  have same : Bcache.passes test ∘ Buf.buf = test := rfl
  rw [List.find?_map, same]
  cases order.find? test with
  | none => rfl
  | some i => rfl

omit [DecidableEq Pid] in
/-- The first loop of `bget` searches the list from its front. -/
theorem findLoop_eq (inv : s.Inv) : s.findLoop dev blockno = s.find dev blockno := by
  rw [Bcache.findLoop, Ring.search_eq inv.visits inv.length_lt, stop_find]
  rfl

omit [DecidableEq Pid] in
/-- The second loop searches it from its end. -/
theorem spareLoop_eq (inv : s.Inv) : s.spareLoop = s.spare := by
  have back := Ring.reverse inv.visits
  have short := inv.length_lt
  rw [← List.length_reverse] at short
  rw [Bcache.spareLoop, Ring.search_eq back short, ← List.map_reverse, stop_find]
  rfl

theorem bget_eq (inv : s.Inv) :
    s.bget p dev blockno =
      ((s.toCache.bget p dev blockno).1,
        { s with toCache := (s.toCache.bget p dev blockno).2 }) := by
  simp only [Bcache.bget, Cache.bget, inv.findLoop_eq, inv.spareLoop_eq]
  cases s.find dev blockno with
  | some i => rfl
  | none =>
      cases s.spare with
      | some i => rfl
      | none => rfl

omit [DecidableEq Pid] in
/-- The recycled buffer has been released before all others that are unused. -/
theorem spare_oldest (inv : s.Inv) (found : s.spare = some i) :
    s.Unused i ∧ ∀ j, s.Unused j → j ≠ i → s.Later j i := by
  rcases List.find?_eq_some_iff_append.mp found with ⟨unused, later, earlier, split, busy⟩
  simp only [Bool.and_eq_true, beq_iff_eq, Bool.not_eq_true'] at unused
  refine ⟨unused, fun j unused' other => ?_⟩
  have sorted := List.pairwise_reverse.mpr inv.sorted
  rw [split, List.pairwise_append] at sorted
  have member : j ∈ s.mru.reverse := List.mem_reverse.mpr (inv.all j)
  rw [split] at member
  rcases List.mem_append.mp member with before | after
  · have used := busy j before
    simp [unused'.1, unused'.2] at used
  · rcases List.mem_cons.mp after with same | after
    · exact absurd same other
    · exact (List.pairwise_cons.mp sorted.2.1).1 j after

omit [DecidableEq Pid] in
theorem spare_isSome (inv : s.Inv) (unused : s.Unused j) : ∃ i, s.spare = some i := by
  rw [← Option.isSome_iff_exists, Cache.spare, List.find?_isSome]
  exact ⟨j, List.mem_reverse.mpr (inv.all j), by simp [unused.1, unused.2]⟩

/-! ## The steps -/

theorem ref (inv : s.Inv) (idle : s.waiting p = none) :
    Bcache.Inv { s with toCache := s.toCache.ref p i } :=
  { inv with refcnt := Cache.ref_counts inv.refcnt idle }

theorem recycle (inv : s.Inv) (idle : s.waiting p = none) (unused : s.Unused i) :
    Bcache.Inv { s with toCache := s.toCache.recycle p i dev blockno } :=
  { inv with refcnt := Cache.recycle_counts inv.refcnt idle unused.1 }

theorem acquiresleep (inv : s.Inv) (free : s.lock i = none) (waits : s.waiting p = some i) :
    Bcache.Inv { s with toCache := s.toCache.acquiresleep p i } :=
  { inv with refcnt := Cache.acquiresleep_counts inv.refcnt free waits }

theorem releasesleep (inv : s.Inv) (holds : s.lock i = some p) (idle : s.releasing p = none) :
    Bcache.Inv { s with toCache := s.toCache.releasesleep p i } :=
  { inv with refcnt := Cache.releasesleep_counts inv.refcnt holds idle }

omit [Fintype Pid] in
theorem unref_last (last : s.refcnt i - 1 = 0) :
    s.unref p i =
      { toCache := s.toCache.unref p i
        toLinks := s.toLinks.toFront (.buf i)
        released := Function.update s.released i (some s.clock)
        clock := s.clock + 1 } := by
  simp [Bcache.unref, Bcache.noteReleased, Cache.unref, last]

omit [Fintype Pid] in
theorem unref_others (others : s.refcnt i - 1 ≠ 0) :
    s.unref p i = { s with toCache := s.toCache.unref p i } := by
  simp [Bcache.unref, Bcache.noteReleased, Cache.unref, others]

/-- A buffer that is given up for good goes to the front of the list. -/
theorem unref (inv : s.Inv) (releases : s.releasing p = some i) : (s.unref p i).Inv := by
  by_cases last : s.refcnt i - 1 = 0
  · rw [unref_last last]
    have order : (s.toCache.unref p i).mru = i :: s.mru.erase i := if_pos last
    have nodup := inv.visits.nodup
    constructor
    · change Links.Visits _ (s.toCache.unref p i).mru
      rw [order]
      exact inv.visits.toFront (inv.all i)
    · intro j
      change j ∈ (s.toCache.unref p i).mru
      rw [order]
      by_cases same : j = i
      · exact List.mem_cons.mpr (Or.inl same)
      · exact List.mem_cons_of_mem i ((List.mem_erase_of_ne same).mpr (inv.all j))
    · change (s.toCache.unref p i).mru.Pairwise _
      rw [order, List.pairwise_cons]
      constructor
      · intro j member t released
        have other : j ≠ i := ((List.Nodup.mem_erase_iff nodup).mp member).1
        have before : s.released j = some t :=
          (Function.update_of_ne other ..).symm.trans released
        exact ⟨s.clock, Function.update_self .., inv.past j t before⟩
      · apply (inv.sorted.sublist List.erase_sublist).imp_of_mem
        intro j k here here' later t released
        have other := ((List.Nodup.mem_erase_iff nodup).mp here).1
        have other' := ((List.Nodup.mem_erase_iff nodup).mp here').1
        have before : s.released k = some t :=
          (Function.update_of_ne other' ..).symm.trans released
        rcases later t before with ⟨t', released', younger⟩
        exact ⟨t', (Function.update_of_ne other ..).trans released', younger⟩
    · intro j t released
      by_cases same : j = i
      · subst same
        have stamped := (Function.update_self j (some s.clock) s.released).symm.trans released
        have now : s.clock = t := Option.some.inj stamped
        rw [← now]
        exact Nat.lt_succ_self _
      · have before : s.released j = some t :=
          (Function.update_of_ne same ..).symm.trans released
        exact Nat.lt_succ_of_lt (inv.past j t before)
    · exact Cache.unref_counts inv.refcnt releases
  · rw [unref_others last]
    have order : (s.toCache.unref p i).mru = s.mru := if_neg last
    constructor
    · change Links.Visits _ (s.toCache.unref p i).mru
      rw [order]
      exact inv.visits
    · intro j
      change j ∈ (s.toCache.unref p i).mru
      rw [order]
      exact inv.all j
    · change (s.toCache.unref p i).mru.Pairwise _
      rw [order]
      exact inv.sorted
    · exact inv.past
    · exact Cache.unref_counts inv.refcnt releases

end Bcache.Inv

/-! ## The processes -/

/-- What a process may do with buffers. -/
inductive Access where
  | bread (dev b : Nat)
  | bwrite (i : Fin NBUF)
  | logWrite (i : Fin NBUF)
  | brelse (i : Fin NBUF)

def Access.program : Access → Prog Act Unit
  | .bread dev b => do
      let _ ← Bio.bread dev b
  | .bwrite i => Bio.bwrite i
  | .logWrite i => perform (.absorb i)
  | .brelse i => Bio.brelse i

/-- Any process may read and write any block, and release any buffer it has. -/
def bufferUsers : System Act Pid (Bcache Pid) where
  exec := Bcache.exec
  task _ _ program := ∃ access : Access, program = access.program

/-- Where a process is between `bcache.lock` and the sleep-locks, and what it holds. -/
@[ext]
structure Place where
  waiting : Option (Fin NBUF)
  releasing : Option (Fin NBUF)
  held : Fin NBUF → Bool

def Bcache.place (s : Bcache Pid) (p : Pid) : Place where
  waiting := s.waiting p
  releasing := s.releasing p
  held i := s.lock i = some p

/-- No reference is given up that nobody has. -/
def Referred : {β : Type} → Act β → Pid → Bcache Pid → Prop
  | _, .unref i, _, s => 0 < s.refcnt i
  | _, _, _, _ => True

def places : Protocol (bufferUsers : System Act Pid (Bcache Pid)) (Bcache Pid) Place where
  inv g s := g = s ∧ s.Inv
  own := Bcache.place
  ok := Referred
  mayPanic _ := True
  rest _ mine := mine.waiting = none ∧ mine.releasing = none

section Rules

variable {p : Pid} {i : Fin NBUF} {mine : Place}

theorem bget_places {dev blockno : Nat} {post : Option (Fin NBUF) → Place → Prop}
    (idle : mine.waiting = none) (fails : post none mine)
    (next : ∀ i, post (some i) { mine with waiting := some i }) :
    (places : Protocol (_ : System Act Pid _) _ _).Safe p
      (perform (.bget dev blockno)) mine post := by
  rintro g _ ⟨rfl, inv⟩ rfl
  refine ⟨trivial, ?_⟩
  simp only [bufferUsers, Bcache.exec, inv.bget_eq, Cache.bget]
  -- the process waits for the buffer, whether it is found or recycled
  have waits : ∀ (cache : Cache Pid) (i : Fin NBUF), cache.lock = g.lock →
      cache.releasing = g.releasing → cache.waiting = Function.update g.waiting p (some i) →
        (∀ q, q ≠ p → Bcache.place { g with toCache := cache } q = g.place q) ∧
          post (some i) (Bcache.place { g with toCache := cache } p) := by
    intro cache i locks releasing waiting
    constructor
    · intro q other
      simp [Bcache.place, locks, releasing, waiting, other]
    · have here := next i
      simpa [Bcache.place, locks, releasing, waiting, places] using here
  cases found : g.find dev blockno with
  | some i =>
      rcases waits (g.toCache.ref p i) i rfl rfl rfl with ⟨frame, kept⟩
      exact ⟨_, ⟨rfl, inv.ref idle⟩, frame, kept⟩
  | none =>
      cases spare : g.spare with
      | some i =>
          rcases waits (g.toCache.recycle p i dev blockno) i rfl rfl rfl with ⟨frame, kept⟩
          exact ⟨_, ⟨rfl, inv.recycle idle (inv.spare_oldest spare).1⟩, frame, kept⟩
      | none => exact ⟨g, ⟨rfl, inv⟩, fun _ _ => rfl, fails⟩

theorem acquiresleep_places {post : Unit → Place → Prop} (waits : mine.waiting = some i)
    (next : ∀ held, post () { mine with waiting := none, held := held }) :
    (places : Protocol (_ : System Act Pid _) _ _).Safe p
      (perform (.acquiresleep i)) mine post := by
  rintro g _ ⟨rfl, inv⟩ rfl
  refine ⟨trivial, ?_⟩
  by_cases free : g.lock i = none
  · simp only [bufferUsers, Bcache.exec, Bio.exec, if_pos free, Outcome.map]
    refine ⟨_, ⟨rfl, inv.acquiresleep free waits⟩, fun q other => ?_, ?_⟩
    · ext1
      · exact Function.update_of_ne other ..
      · rfl
      · funext j
        by_cases same : j = i
        · subst same
          simp [places, Bcache.place, Cache.acquiresleep, free, other.symm]
        · simp [places, Bcache.place, Cache.acquiresleep, same]
    · change post () (Bcache.place _ p)
      have here := next fun j => decide ((g.toCache.acquiresleep p i).lock j = some p)
      convert here using 1
      ext1
      · exact Function.update_self ..
      · rfl
      · rfl
  · simp only [bufferUsers, Bcache.exec, Bio.exec, if_neg free, Outcome.map]
    trivial

theorem holdingsleep_places {post : Bool → Place → Prop} (next : post (mine.held i) mine) :
    (places : Protocol (_ : System Act Pid _) _ _).Safe p
      (perform (.holdingsleep i)) mine post := by
  rintro g _ ⟨rfl, inv⟩ rfl
  exact ⟨trivial, g, ⟨rfl, inv⟩, fun _ _ => rfl, next⟩

theorem releasesleep_places {post : Unit → Place → Prop} (held : mine.held i = true)
    (idle : mine.releasing = none)
    (next : ∀ held, post () { mine with releasing := some i, held := held }) :
    (places : Protocol (_ : System Act Pid _) _ _).Safe p
      (perform (.releasesleep i)) mine post := by
  rintro g _ ⟨rfl, inv⟩ rfl
  have lock : g.lock i = some p := of_decide_eq_true held
  refine ⟨trivial, _, ⟨rfl, inv.releasesleep lock idle⟩, fun q other => ?_, ?_⟩
  · ext1
    · rfl
    · exact Function.update_of_ne other ..
    · funext j
      by_cases same : j = i
      · subst same
        simp [places, Bcache.place, Cache.releasesleep, lock, other.symm]
      · simp [places, Bcache.place, Cache.releasesleep, same]
  · change post () (Bcache.place _ p)
    have here := next fun j => decide ((g.toCache.releasesleep p i).lock j = some p)
    convert here using 1
    ext1
    · rfl
    · exact Function.update_self ..
    · rfl

theorem unref_places {post : Unit → Place → Prop} (releases : mine.releasing = some i)
    (next : post () { mine with releasing := none }) :
    (places : Protocol (_ : System Act Pid _) _ _).Safe p
      (perform (.unref i)) mine post := by
  rintro g _ ⟨rfl, inv⟩ rfl
  have same : (g.unref p i).toCache = g.toCache.unref p i := rfl
  refine ⟨Cache.refcnt_pos inv.refcnt releases, _, ⟨rfl, inv.unref releases⟩,
    fun q other => ?_, ?_⟩
  · change Bcache.place (g.unref p i) q = g.place q
    rw [Bcache.place, same]
    ext1
    · rfl
    · exact Function.update_of_ne other ..
    · rfl
  · change post () (Bcache.place (g.unref p i) p)
    rw [Bcache.place, same]
    convert next using 1
    ext1
    · rfl
    · exact Function.update_self ..
    · rfl

/-- The actions on the data of a buffer. -/
def OnData : {β : Type} → Act β → Prop
  | _, .valid _ => True
  | _, .idleTransfer _ => True
  | _, .markDirty _ => True
  | _, .transfer _ => True
  | _, .absorb _ => True
  | _, _ => False

theorem onData_places {β : Type} {action : Act β} {post : β → Place → Prop}
    (kind : OnData action) (next : ∀ value, post value mine) :
    (places : Protocol (_ : System Act Pid _) _ _).Safe p (perform action) mine post := by
  rintro g _ ⟨rfl, inv⟩ rfl
  cases action with
  | valid j => exact ⟨trivial, g, ⟨rfl, inv⟩, fun _ _ => rfl, next _⟩
  | idleTransfer j => exact ⟨trivial, g, ⟨rfl, inv⟩, fun _ _ => rfl, next _⟩
  | markDirty j => exact ⟨trivial, _, ⟨rfl, { inv with }⟩, fun _ _ => rfl, next _⟩
  | absorb j => exact ⟨trivial, _, ⟨rfl, { inv with }⟩, fun _ _ => rfl, next _⟩
  | transfer j =>
      refine ⟨trivial, ?_⟩
      simp only [bufferUsers, Bcache.exec, Bio.exec, Cache.transfer, Outcome.map]
      split
      · exact ⟨_, ⟨rfl, { inv with }⟩, fun _ _ => rfl, next _⟩
      · exact ⟨_, ⟨rfl, { inv with }⟩, fun _ _ => rfl, next _⟩
  | _ => exact kind.elim

/-! ## `bio.c` -/

theorem sdrw_places {post : Place → Prop} (next : post mine) :
    (places : Protocol (_ : System Act Pid _) _ _).Safe p (sdrw i) mine
      fun _ mine' => post mine' := by
  apply Protocol.Safe.bind
  refine onData_places (by trivial) fun idle => ?_
  cases idle with
  | true => trivial
  | false => exact onData_places trivial fun _ => next

theorem bread_places {dev b : Nat} (idle : mine.waiting = none ∧ mine.releasing = none) :
    (places : Protocol (_ : System Act Pid _) _ _).Safe p (Bio.bread dev b) mine
      fun _ mine' => mine'.waiting = none ∧ mine'.releasing = none := by
  apply Protocol.Safe.bind
  apply Protocol.Safe.bind
  apply bget_places idle.1 trivial
  intro i
  apply Protocol.Safe.bind
  apply acquiresleep_places rfl
  intro held
  apply Protocol.Safe.bind
  refine onData_places (by trivial) fun valid => ?_
  cases valid with
  | true => exact ⟨rfl, idle.2⟩
  | false =>
      apply Protocol.Safe.bind
      exact sdrw_places ⟨rfl, idle.2⟩

theorem bwrite_places (idle : mine.waiting = none ∧ mine.releasing = none) :
    (places : Protocol (_ : System Act Pid _) _ _).Safe p (Bio.bwrite i) mine
      fun _ mine' => mine'.waiting = none ∧ mine'.releasing = none := by
  apply Protocol.Safe.bind
  apply holdingsleep_places
  cases mine.held i with
  | false => trivial
  | true =>
      apply Protocol.Safe.bind
      exact onData_places trivial fun _ => sdrw_places idle

theorem brelse_places (idle : mine.waiting = none ∧ mine.releasing = none) :
    (places : Protocol (_ : System Act Pid _) _ _).Safe p (Bio.brelse i) mine
      fun _ mine' => mine'.waiting = none ∧ mine'.releasing = none := by
  apply Protocol.Safe.bind
  apply holdingsleep_places
  cases held : mine.held i with
  | false => trivial
  | true =>
      apply Protocol.Safe.bind
      apply releasesleep_places held idle.2
      intro held'
      apply unref_places rfl
      exact ⟨idle.1, rfl⟩

theorem access_places (access : Access) (idle : mine.waiting = none ∧ mine.releasing = none) :
    (places : Protocol (_ : System Act Pid _) _ _).Safe p access.program mine
      fun _ mine' => mine'.waiting = none ∧ mine'.releasing = none := by
  cases access with
  | bread dev b =>
      apply Protocol.Safe.seq (bread_places idle)
      exact fun _ _ idle' => idle'
  | bwrite i => exact bwrite_places idle
  | logWrite i => exact onData_places trivial fun _ => idle
  | brelse i => exact brelse_places idle

end Rules

/-! ## Runs -/

/-- After `binit`; the buffers are in the order of the list. -/
def listed (log : Logging.Log) (disk : Nat → Block) : Config Act Pid (Bcache Pid) where
  shared :=
    { toCache := (booted log disk).shared
      toLinks := Links.binit ⟨fun _ => .head, fun _ => .head⟩
      released := fun _ => none
      clock := 0 }
  prog _ := .ret ()

variable {log : Logging.Log} {disk : Nat → Block}

omit [DecidableEq Pid] in
theorem listed_inv : (listed log disk : Config Act Pid (Bcache Pid)).shared.Inv where
  visits := Links.binit_visits
  all i := List.mem_reverse.mpr (List.mem_finRange i)
  sorted := by
    apply List.pairwise_iff_forall_sublist.mpr
    intro j k _ t released
    cases released
  past := by
    intro i t released
    cases released
  refcnt := by
    intro i
    simp [listed, booted, Cache.references, holders, countAt]

theorem reachable_places {config : Config Act Pid (Bcache Pid)}
    (run : bufferUsers.Reachable (listed log disk) config) : places.Explains config := by
  apply Protocol.reachable _ _ run
  · apply Protocol.TasksSafe.ofSafe
    rintro g s p _ _ idle ⟨access, rfl⟩
    exact access_places access idle
  · exact ⟨_, ⟨rfl, listed_inv⟩, fun _ => ⟨rfl, rfl⟩⟩

/--
The list of buffers is a ring of all buffers, the one whose last reference was given up last in
front.  A buffer is recycled if one is unused, and it is the one that has been unused for longest.
-/
theorem buffers_lru {config : Config Act Pid (Bcache Pid)}
    (run : bufferUsers.Reachable (listed log disk) config) :
    (∃ order : List (Fin NBUF), order.Perm (List.finRange NBUF) ∧
      Segment config.shared.next config.shared.prev .head (order.map .buf) .head ∧
        Segment config.shared.prev config.shared.next .head (order.map .buf).reverse .head ∧
          order.Pairwise config.shared.Later) ∧
      ∀ p dev blockno, config.shared.findLoop dev blockno = none →
        ((∃ j, config.shared.Unused j) →
          ∃ i, (config.shared.bget p dev blockno).1 = some i) ∧
        ∀ i, (config.shared.bget p dev blockno).1 = some i →
          config.shared.Unused i ∧
            ∀ j, config.shared.Unused j → j ≠ i → config.shared.Later j i := by
  rcases reachable_places run with ⟨_, ⟨rfl, inv⟩, _⟩
  constructor
  · have ring : Ring _ _ _ _ := inv.visits
    exact ⟨config.shared.mru, inv.perm, ring.segment, ring.segment.reverse, inv.sorted⟩
  · intro p dev blockno missed
    rw [inv.findLoop_eq] at missed
    have recycles : (config.shared.bget p dev blockno).1 = config.shared.spare := by
      rw [inv.bget_eq, Cache.bget, missed]
      cases config.shared.spare with
      | none => rfl
      | some i => rfl
    rw [recycles]
    constructor
    · rintro ⟨j, unused⟩
      exact inv.spare_isSome unused
    · exact fun i found => inv.spare_oldest found

/-- Two blocks are read and released, and a third is about to be read. -/
def twoReleases : List (Event Bool Access) :=
  .call true (.bread ROOTDEV 100) :: List.replicate 5 (.run true) ++
    .call true (.brelse ⟨0, by decide⟩) :: List.replicate 3 (.run true) ++
    .call false (.bread ROOTDEV 101) :: List.replicate 5 (.run false) ++
    .call false (.brelse ⟨1, by decide⟩) :: List.replicate 3 (.run false)

/-- The buffers released are in front, the last one first. -/
theorem buffers_lru_twoReleases :
    ∃ config : Config Act Bool (Bcache Bool),
      bufferUsers.Reachable (listed Logging.mkfsLog fun _ _ => 0) config ∧
        (config.shared.clock = 2 ∧ config.shared.next .head = .buf ⟨1, by decide⟩) ∧
        (∃ order : List (Fin NBUF), order.Perm (List.finRange NBUF) ∧
          Segment config.shared.next config.shared.prev .head (order.map .buf) .head ∧
            Segment config.shared.prev config.shared.next .head (order.map .buf).reverse .head ∧
              order.Pairwise config.shared.Later) ∧
          ∀ p dev blockno, config.shared.findLoop dev blockno = none →
            ((∃ j, config.shared.Unused j) →
              ∃ i, (config.shared.bget p dev blockno).1 = some i) ∧
            ∀ i, (config.shared.bget p dev blockno).1 = some i →
              config.shared.Unused i ∧
                ∀ j, config.shared.Unused j → j ≠ i → config.shared.Later j i := by
  have ends :
      ((bufferUsers : System Act Bool (Bcache Bool)).replay (fun _ _ _ => true) Access.program
          twoReleases (listed Logging.mkfsLog fun _ _ => 0)).any
        (fun config => config.shared.clock == 2 &&
          config.shared.next .head == .buf ⟨1, by decide⟩) = true := by
    decide +kernel
  rcases (Option.any_eq_true _ _).mp ends with ⟨config, replayed, here⟩
  simp only [Bool.and_eq_true, beq_iff_eq] at here
  have run : bufferUsers.Reachable (listed Logging.mkfsLog fun _ _ => 0) config := by
    apply System.replay_reachable _ replayed
    exact fun access _ _ _ => ⟨access, rfl⟩
  exact ⟨config, run, here, buffers_lru run⟩

end PiKernel.Bio
