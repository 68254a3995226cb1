import PiKernel.Bio.Users
import PiKernel.Conc.Count

/-!
# The buffer cache and the array of blocks

`Joint` puts the cache next to the array which it implements.  `Joint.Inv`
says how the two agree while processes are anywhere in `bio.c`: no block has
two buffers, every reference is counted, a buffer without `B_DIRTY` that nobody
holds agrees with the disk, and so recycling it loses nothing.
-/

namespace PiKernel.Bio

open PiKernel.Conc
open PiKernel.Conc.Prog (perform)

variable {Pid : Type} [DecidableEq Pid] [Fintype Pid]

/-- Where a process is in `bio.c`. -/
inductive Phase where
  | idle
  /-- `bget` has found or recycled the buffer. -/
  | waiting (b : Nat) (i : Fin NBUF)
  | locked (b : Nat) (i : Fin NBUF)
  /-- `bread` is about to read the block from disk. -/
  | empty (b : Nat) (i : Fin NBUF)
  | ready (b : Nat) (i : Fin NBUF)
  /-- `bwrite` is about to write the block to disk. -/
  | writing (b : Nat) (i : Fin NBUF)
  | releasing (i : Fin NBUF)

/-- The block which `bread` has locked but not yet returned. -/
@[simp] def Phase.fills : Phase → Option (Nat × Fin NBUF)
  | .locked b i => some (b, i)
  | .empty b i => some (b, i)
  | .ready b i => some (b, i)
  | _ => none

/-- The block which `bwrite` is writing. -/
@[simp] def Phase.writes : Phase → Option (Nat × Fin NBUF)
  | .writing b i => some (b, i)
  | _ => none

def Phase.waits : Phase → Option (Fin NBUF)
  | .waiting _ i => some i
  | _ => none

def Phase.releases : Phase → Option (Fin NBUF)
  | .releasing i => some i
  | _ => none

/-- What a process knows of the buffer it works on. -/
def Phase.Holds (p : Pid) (caches : Fin NBUF → Nat → Prop)
    (lock : Fin NBUF → Option Pid) (valid dirty : Fin NBUF → Bool) : Phase → Prop
  | .idle => True
  | .waiting b i => caches i b
  | .locked b i => caches i b ∧ lock i = some p
  | .empty b i => caches i b ∧ lock i = some p ∧ valid i = false
  | .ready b i => caches i b ∧ lock i = some p ∧ valid i = true
  | .writing b i =>
      caches i b ∧ lock i = some p ∧ valid i = true ∧ dirty i = true
  | .releasing i => lock i ≠ some p

/-- The number of processes that are at the buffer. -/
def countAt (place : Pid → Option (Fin NBUF)) (i : Fin NBUF) : Nat :=
  (Finset.univ.filter fun p => place p = some i).card

theorem countAt_update (place : Pid → Option (Fin NBUF)) (p : Pid)
    (new : Option (Fin NBUF)) (i : Fin NBUF) :
    countAt (Function.update place p new) i + (if place p = some i then 1 else 0) =
      countAt place i + if new = some i then 1 else 0 :=
  card_update (fun at' => at' = some i) place p new

/-- A sleep-lock has at most one holder. -/
def holders (lock : Option Pid) : Nat :=
  if lock.isSome then 1 else 0

/-- Processes that hold the buffer, wait for it or are about to give it up. -/
def Cache.references (s : Cache Pid) (i : Fin NBUF) : Nat :=
  holders (s.lock i) + countAt s.waiting i + countAt s.releasing i

namespace Cache

variable {s : Cache Pid} {p : Pid} {i : Fin NBUF} {dev blockno : Nat}

theorem ref_counts (counts : ∀ j, s.refcnt j = s.references j) (idle : s.waiting p = none)
    (j : Fin NBUF) : (s.ref p i).refcnt j = (s.ref p i).references j := by
  have before := counts j
  have counted := countAt_update s.waiting p (some i) j
  simp only [idle, reduceCtorEq, if_false, Option.some.injEq] at counted
  simp only [references, ref, Function.update_apply] at before ⊢
  split <;> rename_i same
  · rw [if_pos same.symm] at counted
    subst same
    omega
  · rw [if_neg (Ne.symm same)] at counted
    omega

theorem recycle_counts (counts : ∀ j, s.refcnt j = s.references j) (idle : s.waiting p = none)
    (unused : s.refcnt i = 0) (j : Fin NBUF) :
    (s.recycle p i dev blockno).refcnt j = (s.recycle p i dev blockno).references j := by
  have before := counts j
  have counted := countAt_update s.waiting p (some i) j
  simp only [idle, reduceCtorEq, if_false, Option.some.injEq] at counted
  simp only [references, recycle, Function.update_apply] at before ⊢
  split <;> rename_i same
  · rw [if_pos same.symm] at counted
    subst same
    omega
  · rw [if_neg (Ne.symm same)] at counted
    omega

theorem acquiresleep_counts (counts : ∀ j, s.refcnt j = s.references j) (free : s.lock i = none)
    (waits : s.waiting p = some i) (j : Fin NBUF) :
    (s.acquiresleep p i).refcnt j = (s.acquiresleep p i).references j := by
  have before := counts j
  have counted := countAt_update s.waiting p none j
  simp only [waits, reduceCtorEq, if_false, Option.some.injEq] at counted
  simp only [references, acquiresleep] at before ⊢
  by_cases same : j = i
  · subst same
    simp only [if_true, free, holders, Option.isSome_none, Bool.false_eq_true, if_false,
      Function.update_self, Option.isSome_some] at before counted ⊢
    omega
  · rw [if_neg (Ne.symm same)] at counted
    rw [Function.update_of_ne same]
    omega

theorem releasesleep_counts (counts : ∀ j, s.refcnt j = s.references j)
    (lock : s.lock i = some p) (idle : s.releasing p = none) (j : Fin NBUF) :
    (s.releasesleep p i).refcnt j = (s.releasesleep p i).references j := by
  have before := counts j
  have counted := countAt_update s.releasing p (some i) j
  simp only [idle, reduceCtorEq, if_false, Option.some.injEq] at counted
  simp only [references, releasesleep] at before ⊢
  by_cases same : j = i
  · subst same
    simp only [if_true, lock, holders, Option.isSome_some, Function.update_self,
      Option.isSome_none, Bool.false_eq_true, if_false] at before counted ⊢
    omega
  · rw [if_neg (Ne.symm same)] at counted
    rw [Function.update_of_ne same]
    omega

omit [DecidableEq Pid] in
/-- A buffer that is being given up is still referred to. -/
theorem refcnt_pos (counts : ∀ j, s.refcnt j = s.references j)
    (releases : s.releasing p = some i) : 0 < s.refcnt i := by
  have positive : 0 < countAt s.releasing i :=
    Finset.card_pos.mpr ⟨p, by simpa using releases⟩
  rw [counts, references]
  omega

theorem unref_counts (counts : ∀ j, s.refcnt j = s.references j)
    (releases : s.releasing p = some i) (j : Fin NBUF) :
    (s.unref p i).refcnt j = (s.unref p i).references j := by
  have before := counts j
  have positive := refcnt_pos counts releases
  have counted := countAt_update s.releasing p none j
  simp only [releases, reduceCtorEq, if_false, Option.some.injEq] at counted
  simp only [references, unref] at before ⊢
  by_cases same : j = i
  · subst same
    simp only [if_true] at counted
    rw [Function.update_self]
    omega
  · rw [if_neg (Ne.symm same)] at counted
    rw [Function.update_of_ne same]
    omega

end Cache

/-- A process holds the buffer, waits for it or is about to give it up. -/
def Cache.At (s : Cache Pid) (p : Pid) (i : Fin NBUF) : Prop :=
  s.lock i = some p ∨ s.waiting p = some i ∨ s.releasing p = some i

/-- The sectors that a process has asked for are those of the buffers it is at. -/
def Cache.Served (s : Cache Pid) : Prop :=
  ∀ p x, x ∈ s.asked p ↔ ∃ i, s.dev i = ROOTDEV ∧ s.blockno i = x ∧ s.At p i

namespace Cache.Served

variable {s : Cache Pid} {p : Pid} {i : Fin NBUF} {blockno : Nat}

omit [Fintype Pid] in
theorem ref (served : s.Served) (idle : s.waiting p = none) (root : s.dev i = ROOTDEV) :
    (s.ref p i).Served := by
  intro q x
  by_cases mine : q = p
  · subst mine
    simp only [Cache.ref, Cache.At, Function.update_self, Finset.mem_insert, served q x, idle,
      Option.some.injEq, reduceCtorEq, false_or]
    constructor
    · rintro (rfl | ⟨j, root', sector, held | releases⟩)
      · exact ⟨i, root, rfl, Or.inr (Or.inl rfl)⟩
      · exact ⟨j, root', sector, Or.inl held⟩
      · exact ⟨j, root', sector, Or.inr (Or.inr releases)⟩
    · rintro ⟨j, root', sector, held | rfl | releases⟩
      · exact Or.inr ⟨j, root', sector, Or.inl held⟩
      · exact Or.inl sector.symm
      · exact Or.inr ⟨j, root', sector, Or.inr releases⟩
  · simpa only [Cache.ref, Cache.At, Function.update_of_ne mine] using served q x

omit [Fintype Pid] in
/-- A buffer that nobody is at gets a new sector. -/
theorem recycle (served : s.Served) (idle : s.waiting p = none)
    (unused : ∀ q, ¬ s.At q i) : (s.recycle p i ROOTDEV blockno).Served := by
  have others : ∀ q x, x ∈ s.asked q ↔
      ∃ j, j ≠ i ∧ s.dev j = ROOTDEV ∧ s.blockno j = x ∧ s.At q j := by
    intro q x
    rw [served q x]
    constructor
    · rintro ⟨j, root, sector, here⟩
      refine ⟨j, ?_, root, sector, here⟩
      rintro rfl
      exact unused q here
    · rintro ⟨j, _, found⟩
      exact ⟨j, found⟩
  intro q x
  by_cases mine : q = p
  · subst mine
    simp only [Cache.recycle, Function.update_self, Finset.mem_insert, others q x]
    constructor
    · rintro (rfl | ⟨j, other, root, sector, held | waits | releases⟩)
      · exact ⟨i, Function.update_self .., Function.update_self ..,
          Or.inr (Or.inl (Function.update_self ..))⟩
      · exact ⟨j, (Function.update_of_ne other ..).trans root,
          (Function.update_of_ne other ..).trans sector, Or.inl held⟩
      · rw [idle] at waits
        cases waits
      · exact ⟨j, (Function.update_of_ne other ..).trans root,
          (Function.update_of_ne other ..).trans sector, Or.inr (Or.inr releases)⟩
    · rintro ⟨j, root, sector, here⟩
      by_cases same : j = i
      · subst same
        exact Or.inl ((Function.update_self ..).symm.trans sector).symm
      · have root := (Function.update_of_ne same ..).symm.trans root
        have sector := (Function.update_of_ne same ..).symm.trans sector
        rcases here with held | waits | releases
        · exact Or.inr ⟨j, same, root, sector, Or.inl held⟩
        · have waits := (Function.update_self ..).symm.trans waits
          exact absurd (Option.some.inj waits).symm same
        · exact Or.inr ⟨j, same, root, sector, Or.inr (Or.inr releases)⟩
  · simp only [Cache.recycle, Function.update_of_ne mine, others q x]
    constructor
    · rintro ⟨j, other, root, sector, here⟩
      refine ⟨j, (Function.update_of_ne other ..).trans root,
        (Function.update_of_ne other ..).trans sector, ?_⟩
      simpa only [Cache.At, Function.update_of_ne mine] using here
    · rintro ⟨j, root, sector, here⟩
      have before : s.At q j := by
        simpa only [Cache.At, Function.update_of_ne mine] using here
      have other : j ≠ i := by
        rintro rfl
        exact unused q before
      exact ⟨j, other, (Function.update_of_ne other ..).symm.trans root,
        (Function.update_of_ne other ..).symm.trans sector, before⟩

omit [DecidableEq Pid] [Fintype Pid] in
/-- Processes stay at their buffers when the sleep-locks change hands. -/
theorem congr (served : s.Served) {s' : Cache Pid} (asked : s'.asked = s.asked)
    (dev : s'.dev = s.dev) (sectors : s'.blockno = s.blockno)
    (here : ∀ q j, s'.At q j ↔ s.At q j) : s'.Served := by
  intro q x
  rw [asked, dev, sectors, served q x]
  simp only [here]

omit [Fintype Pid] in
theorem acquiresleep (served : s.Served) (free : s.lock i = none)
    (waits : s.waiting p = some i) : (s.acquiresleep p i).Served := by
  refine served.congr rfl rfl rfl fun q j => ?_
  by_cases mine : q = p <;> by_cases same : j = i
  · subst mine same
    simp [Cache.acquiresleep, Cache.At, waits]
  · subst mine
    simp [Cache.acquiresleep, Cache.At, waits, same, Ne.symm same]
  · subst same
    simp [Cache.acquiresleep, Cache.At, mine, Ne.symm mine, free]
  · simp [Cache.acquiresleep, Cache.At, mine, same]

omit [Fintype Pid] in
theorem releasesleep (served : s.Served) (lock : s.lock i = some p)
    (idle : s.releasing p = none) : (s.releasesleep p i).Served := by
  refine served.congr rfl rfl rfl fun q j => ?_
  by_cases mine : q = p <;> by_cases same : j = i
  · subst mine same
    simp [Cache.releasesleep, Cache.At, lock]
  · subst mine
    simp [Cache.releasesleep, Cache.At, idle, same, Ne.symm same]
  · subst same
    simp [Cache.releasesleep, Cache.At, mine, Ne.symm mine, lock]
  · simp [Cache.releasesleep, Cache.At, mine, same]

omit [Fintype Pid] in
/-- Only one buffer has the sector that is given back. -/
theorem unref (served : s.Served) (releases : s.releasing p = some i)
    (unlocked : s.lock i ≠ some p) (idle : s.waiting p = none)
    (unique : ∀ j, s.dev j = ROOTDEV → s.blockno j = s.blockno i → j = i) :
    (s.unref p i).Served := by
  intro q x
  by_cases mine : q = p
  · subst mine
    simp only [Cache.unref, Cache.At, Function.update_self, Finset.mem_erase, served q x,
      idle, releases, Option.some.injEq, reduceCtorEq, false_or, or_false]
    constructor
    · rintro ⟨other, j, root, sector, held | rfl⟩
      · exact ⟨j, root, sector, held⟩
      · exact absurd sector.symm other
    · rintro ⟨j, root, sector, held⟩
      refine ⟨?_, j, root, sector, Or.inl held⟩
      rintro rfl
      rw [unique j root sector] at held
      exact unlocked held
  · simpa only [Cache.unref, Cache.At, Function.update_of_ne mine] using served q x

end Cache.Served

/-- The cache, the array it implements, and where every process is. -/
structure Joint (Pid : Type) where
  cache : Cache Pid
  abs : Config Logging.Act Pid (Logging.State Pid)
  phase : Pid → Phase

variable (quota : Finset Nat → Bool) (log : Logging.Log) (disk : Nat → Block)

structure Joint.Inv (g : Joint Pid) : Prop where
  /-- The array is in a state of a run of the same users. -/
  run : (arrayUsers quota).Reachable (Logging.initial log disk) g.abs
  ops : g.abs.shared.toOps = g.cache.toOps
  listed : ∀ i, i ∈ g.cache.mru
  unused : ∀ i, g.cache.dev i ≠ ROOTDEV →
    g.cache.dev i = 0 ∧ g.cache.refcnt i = 0 ∧ g.cache.dirty i = false
  number : ∀ i, g.cache.dev i = ROOTDEV → ∃ b, g.cache.Caches i b
  unique : ∀ i j b, g.cache.Caches i b → g.cache.Caches j b → i = j
  refcnt : ∀ i, g.cache.refcnt i = g.cache.references i
  waiting : ∀ p, g.cache.waiting p = (g.phase p).waits
  releasing : ∀ p, g.cache.releasing p = (g.phase p).releases
  phase : ∀ p, (g.phase p).Holds p g.cache.Caches g.cache.lock g.cache.valid
    g.cache.dirty
  holder : ∀ b p, g.abs.shared.holder b = some p ↔
    ∃ i, g.cache.Caches i b ∧ g.cache.lock i = some p
  pointer : ∀ b p, g.abs.shared.holder b = some p →
    (∃ i, (g.phase p).fills = some (b, i)) ∨
      ∃ i, g.cache.pointer p b = some i ∧ g.cache.Caches i b ∧
        g.cache.lock i = some p
  valid : ∀ i p, g.cache.lock i = some p →
    g.cache.valid i = true ∨ ∃ b, (g.phase p).fills = some (b, i)
  dirtyValid : ∀ i, g.cache.dirty i = true → g.cache.valid i = true
  view : ∀ i b, g.cache.Caches i b → g.abs.shared.view b =
    if g.cache.valid i then g.cache.data i else g.cache.disk (b + MBR_BASE)
  uncached : ∀ b, (∀ i, ¬ g.cache.Caches i b) →
    g.abs.shared.view b = g.cache.disk (b + MBR_BASE)
  disk : ∀ b, g.abs.shared.disk b = g.cache.disk (b + MBR_BASE)
  pinned : ∀ b, g.abs.shared.dirty b = true →
    ∃ i, g.cache.Caches i b ∧ g.cache.dirty i = true
  dirty : ∀ i b, g.cache.Caches i b → g.cache.dirty i = true →
    g.abs.shared.dirty b = true ∨ ∃ p, (g.phase p).writes = some (b, i)
  settled : ∀ b, g.abs.shared.holder b = none →
    g.abs.shared.dirty b = true ∨ g.abs.shared.disk b = g.abs.shared.view b
  served : g.cache.Served
  unhomed : ∀ x, x ∈ g.cache.unhomed ↔
    ∃ b, g.abs.shared.dirty b = true ∧ b + MBR_BASE = x

variable {quota log disk} {g : Joint Pid} {p : Pid} {i : Fin NBUF} {b : Nat}

/-! ## Changing the phase of one process -/

omit [DecidableEq Pid] [Fintype Pid] in
/-- A process knows as much while the buffers it waits for or holds are kept. -/
theorem Phase.Holds.congr {phase : Phase} {caches caches' : Fin NBUF → Nat → Prop}
    {lock lock' : Fin NBUF → Option Pid} {valid valid' dirty dirty' : Fin NBUF → Bool}
    (holds : phase.Holds p caches lock valid dirty)
    (kept : ∀ j x, caches j x → phase.waits = some j ∨ lock j = some p →
      caches' j x)
    (held : ∀ j, lock j = some p →
      lock' j = some p ∧ valid' j = valid j ∧ dirty' j = dirty j)
    (unlocked : ∀ j, lock' j = some p → lock j = some p) :
    phase.Holds p caches' lock' valid' dirty' := by
  cases phase with
  | idle => trivial
  | releasing j => exact fun lock => holds (unlocked j lock)
  | waiting x j => exact kept j x holds (Or.inl rfl)
  | locked x j =>
      rcases holds with ⟨caches, lock⟩
      exact ⟨kept j x caches (Or.inr lock), (held j lock).1⟩
  | empty x j =>
      rcases holds with ⟨caches, lock, valid⟩
      rcases held j lock with ⟨lock', same, _⟩
      exact ⟨kept j x caches (Or.inr lock), lock', same.trans valid⟩
  | ready x j =>
      rcases holds with ⟨caches, lock, valid⟩
      rcases held j lock with ⟨lock', same, _⟩
      exact ⟨kept j x caches (Or.inr lock), lock', same.trans valid⟩
  | writing x j =>
      rcases holds with ⟨caches, lock, valid, dirty⟩
      rcases held j lock with ⟨lock', same, same'⟩
      exact ⟨kept j x caches (Or.inr lock), lock', same.trans valid, same'.trans dirty⟩

omit [Fintype Pid] in
theorem phase_update {α : Type} (part : Phase → α) {phase : Pid → Phase}
    {new : Phase} (same : part new = part (phase p)) (q : Pid) :
    part (Function.update phase p new q) = part (phase q) := by
  by_cases mine : q = p
  · subst mine
    rw [Function.update_self, same]
  · rw [Function.update_of_ne mine]

omit [Fintype Pid] in
/-- The other processes know what they knew. -/
theorem phase_holds {phase : Pid → Phase} {new : Phase}
    {caches : Fin NBUF → Nat → Prop} {lock : Fin NBUF → Option Pid}
    {valid dirty : Fin NBUF → Bool}
    (mine : new.Holds p caches lock valid dirty)
    (others : ∀ q, q ≠ p → (phase q).Holds q caches lock valid dirty) (q : Pid) :
    (Function.update phase p new q).Holds q caches lock valid dirty := by
  by_cases same : q = p
  · subst same
    rw [Function.update_self]
    exact mine
  · rw [Function.update_of_ne same]
    exact others q same

namespace Joint.Inv

theorem lockFree (inv : g.Inv quota log disk) (unused : g.cache.refcnt i = 0) :
    g.cache.lock i = none := by
  have counted := inv.refcnt i
  rw [unused, Cache.references] at counted
  by_contra held
  have isSome : (g.cache.lock i).isSome := Option.ne_none_iff_isSome.mp held
  simp only [holders, isSome, if_true] at counted
  omega

theorem notAwaited (inv : g.Inv quota log disk) (unused : g.cache.refcnt i = 0) :
    g.cache.waiting p ≠ some i := by
  intro waits
  have counted := inv.refcnt i
  rw [unused, Cache.references] at counted
  have positive : 0 < countAt g.cache.waiting i :=
    Finset.card_pos.mpr ⟨p, by simpa using waits⟩
  omega

theorem notAt (inv : g.Inv quota log disk) (unused : g.cache.refcnt i = 0) :
    ¬ g.cache.At p i := by
  rintro (lock | waits | releases)
  · rw [inv.lockFree unused] at lock
    cases lock
  · exact inv.notAwaited unused waits
  · have positive := Cache.refcnt_pos inv.refcnt releases
    omega

/-! ## `bget` -/

theorem ref (inv : g.Inv quota log disk) (idle : g.phase p = .idle)
    (caches : g.cache.Caches i b) :
    Joint.Inv quota log disk
      { g with
        cache := g.cache.ref p i
        phase := Function.update g.phase p (.waiting b i) } := by
  have nowhere : g.cache.waiting p = none := by
    rw [inv.waiting, idle]
    rfl
  have fills : (Phase.waiting b i).fills = (g.phase p).fills := by rw [idle]; rfl
  have writes : (Phase.waiting b i).writes = (g.phase p).writes := by rw [idle]; rfl
  have releases : (Phase.waiting b i).releases = (g.phase p).releases := by
    rw [idle]
    rfl
  exact
    { inv with
      unused := by
        intro j other
        have apart : j ≠ i := by
          rintro rfl
          exact other caches.1
        simpa [Cache.ref, apart] using inv.unused j other
      refcnt := Cache.ref_counts inv.refcnt nowhere
      waiting := by
        intro q
        by_cases same : q = p
        · subst same
          simp [Cache.ref, Phase.waits]
        · simpa [Cache.ref, same] using inv.waiting q
      releasing := by
        intro q
        rw [phase_update Phase.releases releases]
        exact inv.releasing q
      phase := phase_holds caches fun q _ => inv.phase q
      pointer := by
        intro x q held
        rw [phase_update Phase.fills fills]
        exact inv.pointer x q held
      valid := by
        intro j q held
        rw [phase_update Phase.fills fills]
        exact inv.valid j q held
      dirty := by
        intro j x caches' dirty
        simp only [phase_update Phase.writes writes]
        exact inv.dirty j x caches' dirty
      served := inv.served.ref nowhere caches.1 }

/-- A buffer that may be recycled agrees with the disk. -/
theorem spareView (inv : g.Inv quota log disk) (unused : g.cache.refcnt i = 0)
    (clean : g.cache.dirty i = false) (caches : g.cache.Caches i b) :
    g.abs.shared.view b = g.cache.disk (b + MBR_BASE) := by
  have free : g.abs.shared.holder b = none := by
    by_contra held
    rcases Option.ne_none_iff_exists'.mp held with ⟨q, owner⟩
    rcases (inv.holder b q).mp owner with ⟨j, caches', lock⟩
    rw [inv.unique j i b caches' caches, inv.lockFree unused] at lock
    cases lock
  rcases inv.settled b free with dirty | same
  · rcases inv.pinned b dirty with ⟨j, caches', dirty'⟩
    rw [inv.unique j i b caches' caches, clean] at dirty'
    cases dirty'
  · rw [← same, inv.disk]

omit [Fintype Pid] in
/-- The buffer that is recycled goes to block `b` and to no other. -/
theorem caches_recycle {s : Cache Pid} {j : Fin NBUF} {x : Nat} :
    (s.recycle p i ROOTDEV (b + MBR_BASE)).Caches j x ↔
      (j = i ∧ x = b) ∨ (j ≠ i ∧ s.Caches j x) := by
  by_cases same : j = i
  · subst same
    simp only [Cache.Caches, Cache.recycle, Function.update_self, true_and, ne_eq,
      not_true_eq_false, false_and, or_false]
    omega
  · simp [Cache.Caches, Cache.recycle, same]

theorem recycle (inv : g.Inv quota log disk) (idle : g.phase p = .idle)
    (fresh : ∀ j, ¬ g.cache.Caches j b) (unused : g.cache.refcnt i = 0)
    (clean : g.cache.dirty i = false) :
    Joint.Inv quota log disk
      { g with
        cache := g.cache.recycle p i ROOTDEV (b + MBR_BASE)
        phase := Function.update g.phase p (.waiting b i) } := by
  have nowhere : g.cache.waiting p = none := by
    rw [inv.waiting, idle]
    rfl
  have fills : (Phase.waiting b i).fills = (g.phase p).fills := by rw [idle]; rfl
  have writes : (Phase.waiting b i).writes = (g.phase p).writes := by rw [idle]; rfl
  have releases : (Phase.waiting b i).releases = (g.phase p).releases := by
    rw [idle]
    rfl
  have free := inv.lockFree unused
  have apart : ∀ j q, g.cache.lock j = some q → j ≠ i := by
    rintro j q held rfl
    rw [free] at held
    cases held
  exact
    { inv with
      unused := by
        intro j other
        have different : j ≠ i := by
          rintro rfl
          exact other (Function.update_self ..)
        simp only [Cache.recycle, Function.update_of_ne different] at other ⊢
        exact inv.unused j other
      number := by
        intro j root
        by_cases same : j = i
        · exact ⟨b, caches_recycle.mpr (Or.inl ⟨same, rfl⟩)⟩
        · simp only [Cache.recycle, Function.update_of_ne same] at root
          rcases inv.number j root with ⟨x, caches⟩
          exact ⟨x, caches_recycle.mpr (Or.inr ⟨same, caches⟩)⟩
      unique := by
        intro j k x first second
        rcases caches_recycle.mp first with ⟨here, block⟩ | ⟨_, first⟩ <;>
          rcases caches_recycle.mp second with ⟨here', block'⟩ | ⟨_, second⟩
        · rw [here, here']
        · rw [block] at second
          exact absurd second (fresh k)
        · rw [block'] at first
          exact absurd first (fresh j)
        · exact inv.unique j k x first second
      refcnt := Cache.recycle_counts inv.refcnt nowhere unused
      waiting := by
        intro q
        by_cases same : q = p
        · subst same
          simp [Cache.recycle, Phase.waits]
        · simpa [Cache.recycle, same] using inv.waiting q
      releasing := by
        intro q
        rw [phase_update Phase.releases releases]
        exact inv.releasing q
      phase := by
        apply phase_holds
        · exact caches_recycle.mpr (Or.inl ⟨rfl, rfl⟩)
        intro q _
        apply (inv.phase q).congr
        · intro j x caches place
          refine caches_recycle.mpr (Or.inr ⟨?_, caches⟩)
          rcases place with waits | lock
          · rintro rfl
            exact inv.notAwaited unused ((inv.waiting q).trans waits)
          · exact apart j q lock
        · intro j lock
          have other := apart j q lock
          exact ⟨lock, Function.update_of_ne other .., Function.update_of_ne other ..⟩
        · exact fun _ lock => lock
      holder := by
        intro x q
        rw [inv.holder x q]
        constructor
        · rintro ⟨j, caches, lock⟩
          exact ⟨j, caches_recycle.mpr (Or.inr ⟨apart j q lock, caches⟩), lock⟩
        · rintro ⟨j, caches, lock⟩
          rcases caches_recycle.mp caches with ⟨same, _⟩ | ⟨_, caches⟩
          · exact absurd same (apart j q lock)
          · exact ⟨j, caches, lock⟩
      pointer := by
        intro x q held
        rw [phase_update Phase.fills fills]
        refine (inv.pointer x q held).imp_right ?_
        rintro ⟨j, pointer, caches, lock⟩
        exact ⟨j, pointer, caches_recycle.mpr (Or.inr ⟨apart j q lock, caches⟩), lock⟩
      valid := by
        intro j q held
        rw [phase_update Phase.fills fills]
        simp only [Cache.recycle, Function.update_of_ne (apart j q held)]
        exact inv.valid j q held
      dirtyValid := by
        intro j dirty
        by_cases same : j = i
        · simp [Cache.recycle, same] at dirty
        · simp only [Cache.recycle, Function.update_of_ne same] at dirty ⊢
          exact inv.dirtyValid j dirty
      view := by
        intro j x caches
        rcases caches_recycle.mp caches with ⟨rfl, rfl⟩ | ⟨other, caches⟩
        · simp [Cache.recycle, inv.uncached x fresh]
        · simp only [Cache.recycle, Function.update_of_ne other]
          exact inv.view j x caches
      uncached := by
        intro x nobody
        by_cases old : g.cache.Caches i x
        · exact inv.spareView unused clean old
        · apply inv.uncached x
          intro j caches
          refine nobody j (caches_recycle.mpr (Or.inr ⟨?_, caches⟩))
          rintro rfl
          exact old caches
      pinned := by
        intro x dirty
        rcases inv.pinned x dirty with ⟨j, caches, dirty'⟩
        have other : j ≠ i := by
          rintro rfl
          rw [clean] at dirty'
          cases dirty'
        refine ⟨j, caches_recycle.mpr (Or.inr ⟨other, caches⟩), ?_⟩
        simpa [Cache.recycle, other] using dirty'
      dirty := by
        intro j x caches dirty
        simp only [phase_update Phase.writes writes]
        rcases caches_recycle.mp caches with ⟨rfl, _⟩ | ⟨other, caches⟩
        · simp [Cache.recycle] at dirty
        · simp only [Cache.recycle, Function.update_of_ne other] at dirty
          exact inv.dirty j x caches dirty
      served := inv.served.recycle nowhere fun _ => inv.notAt unused }

/-! ## `bread` -/

omit [DecidableEq Pid] [Fintype Pid] in
theorem Caches.block {s : Cache Pid} {x : Nat} (caches : s.Caches i b)
    (other : s.Caches i x) : x = b := by
  have same := caches.2.symm.trans other.2
  omega

/-- The process gets the sleep-lock; in the array it now holds the block. -/
theorem acquire (inv : g.Inv quota log disk) (at' : g.phase p = .waiting b i)
    (free : g.cache.lock i = none) {prog : Pid → Prog Logging.Act Unit}
    (run : (arrayUsers quota).Reachable (Logging.initial log disk)
      ⟨{ g.abs.shared with
          holder := Function.update g.abs.shared.holder b (some p) }, prog⟩) :
    Joint.Inv quota log disk
      { cache := g.cache.acquiresleep p i
        abs :=
          ⟨{ g.abs.shared with
              holder := Function.update g.abs.shared.holder b (some p) }, prog⟩
        phase := Function.update g.phase p (.locked b i) } := by
  have caches : g.cache.Caches i b := by
    simpa [at', Phase.Holds] using inv.phase p
  have waits : g.cache.waiting p = some i := by
    rw [inv.waiting, at']
    rfl
  have nothing : (g.phase p).fills = none := by rw [at']; rfl
  have writes : (Phase.locked b i).writes = (g.phase p).writes := by rw [at']; rfl
  have releases : (Phase.locked b i).releases = (g.phase p).releases := by
    rw [at']
    rfl
  have apart : ∀ j q, g.cache.lock j = some q → j ≠ i := by
    rintro j q held rfl
    rw [free] at held
    cases held
  exact
    { inv with
      run := run
      refcnt := Cache.acquiresleep_counts inv.refcnt free waits
      waiting := by
        intro q
        by_cases same : q = p
        · subst same
          simp [Cache.acquiresleep, Phase.waits]
        · simpa [Cache.acquiresleep, same] using inv.waiting q
      releasing := by
        intro q
        rw [phase_update Phase.releases releases]
        exact inv.releasing q
      phase := by
        apply phase_holds
        · exact ⟨caches, Function.update_self ..⟩
        intro q different
        apply (inv.phase q).congr fun j x caches _ => caches
        · intro j lock
          exact ⟨(Function.update_of_ne (apart j q lock) ..).trans lock, rfl, rfl⟩
        · intro j lock
          have other : j ≠ i := by
            rintro rfl
            have mine := (Function.update_self ..).symm.trans lock
            exact different (Option.some.inj mine).symm
          exact (Function.update_of_ne other ..).symm.trans lock
      holder := by
        intro x q
        by_cases same : x = b
        · subst same
          simp only [Function.update_self, Option.some.injEq]
          constructor
          · rintro rfl
            exact ⟨i, caches, Function.update_self ..⟩
          · rintro ⟨j, caches', lock⟩
            rw [inv.unique j i x caches' caches] at lock
            simpa [Cache.acquiresleep] using lock
        · simp only [Function.update_of_ne same]
          rw [inv.holder x q]
          constructor
          · rintro ⟨j, caches', lock⟩
            exact ⟨j, caches', (Function.update_of_ne (apart j q lock) ..).trans lock⟩
          · rintro ⟨j, caches', lock⟩
            have other : j ≠ i := by
              rintro rfl
              exact same (Caches.block caches caches')
            exact ⟨j, caches', (Function.update_of_ne other ..).symm.trans lock⟩
      pointer := by
        intro x q held
        by_cases same : x = b
        · subst same
          simp only [Function.update_self, Option.some.injEq] at held
          subst held
          exact Or.inl ⟨i, by simp [Phase.fills]⟩
        · simp only [Function.update_of_ne same] at held
          rcases inv.pointer x q held with ⟨j, filling⟩ | ⟨j, pointer, caches', lock⟩
          · have other : q ≠ p := by
              rintro rfl
              rw [nothing] at filling
              cases filling
            exact Or.inl ⟨j, by simpa [other] using filling⟩
          · exact Or.inr ⟨j, pointer, caches',
              (Function.update_of_ne (apart j q lock) ..).trans lock⟩
      valid := by
        intro j q held
        by_cases same : j = i
        · subst same
          simp only [Cache.acquiresleep, Function.update_self, Option.some.injEq]
            at held
          subst held
          exact Or.inr ⟨b, by simp [Phase.fills]⟩
        · simp only [Cache.acquiresleep, Function.update_of_ne same] at held ⊢
          rcases inv.valid j q held with valid | ⟨x, filling⟩
          · exact Or.inl valid
          · have other : q ≠ p := by
              rintro rfl
              rw [nothing] at filling
              cases filling
            exact Or.inr ⟨x, by simpa [other] using filling⟩
      dirty := by
        intro j x caches' dirty
        simp only [phase_update Phase.writes writes]
        exact inv.dirty j x caches' dirty
      settled := by
        intro x unheld
        have other : x ≠ b := by
          rintro rfl
          simp at unheld
        simp only [Function.update_of_ne other] at unheld
        exact inv.settled x unheld
      served := inv.served.acquiresleep free waits }

/-- A process learns something about the buffer it has locked. -/
theorem advance (inv : g.Inv quota log disk) (new : Phase)
    (waits : new.waits = (g.phase p).waits)
    (releases : new.releases = (g.phase p).releases)
    (fills : new.fills = (g.phase p).fills)
    (writes : new.writes = (g.phase p).writes)
    (holds : new.Holds p g.cache.Caches g.cache.lock g.cache.valid g.cache.dirty) :
    Joint.Inv quota log disk
      { g with phase := Function.update g.phase p new } :=
  { inv with
    waiting := by
      intro q
      rw [phase_update Phase.waits waits]
      exact inv.waiting q
    releasing := by
      intro q
      rw [phase_update Phase.releases releases]
      exact inv.releasing q
    phase := phase_holds holds fun q _ => inv.phase q
    pointer := by
      intro x q held
      rw [phase_update Phase.fills fills]
      exact inv.pointer x q held
    valid := by
      intro j q held
      rw [phase_update Phase.fills fills]
      exact inv.valid j q held
    dirty := by
      intro j x caches dirty
      simp only [phase_update Phase.writes writes]
      exact inv.dirty j x caches dirty }

omit [DecidableEq Pid] [Fintype Pid] in
/-- No other process holds the buffer that a process has locked. -/
theorem others {lock : Fin NBUF → Option Pid} (mine : lock i = some p) {j : Fin NBUF}
    {q : Pid} (other : q ≠ p) (held : lock j = some q) : j ≠ i := by
  rintro rfl
  rw [mine] at held
  cases held
  exact other rfl

/-- `sdrw` reads the block. -/
theorem readIn (inv : g.Inv quota log disk) (at' : g.phase p = .empty b i) :
    Joint.Inv quota log disk
      { g with
        cache := g.cache.transfer i
        phase := Function.update g.phase p (.ready b i) } := by
  have here : g.cache.Caches i b ∧ g.cache.lock i = some p ∧
      g.cache.valid i = false := by
    simpa [at', Phase.Holds] using inv.phase p
  rcases here with ⟨caches, lock, invalid⟩
  have clean : g.cache.dirty i = false := by
    rw [Bool.eq_false_iff]
    intro dirty
    rw [inv.dirtyValid i dirty] at invalid
    cases invalid
  have fills : (Phase.ready b i).fills = (g.phase p).fills := by rw [at']; rfl
  have writes : (Phase.ready b i).writes = (g.phase p).writes := by rw [at']; rfl
  have waits : (Phase.ready b i).waits = (g.phase p).waits := by rw [at']; rfl
  have releases : (Phase.ready b i).releases = (g.phase p).releases := by
    rw [at']
    rfl
  rw [Cache.transfer, if_neg (by simp [clean])]
  exact
    { inv with
      waiting := by
        intro q
        rw [phase_update Phase.waits waits]
        exact inv.waiting q
      releasing := by
        intro q
        rw [phase_update Phase.releases releases]
        exact inv.releasing q
      phase := by
        apply phase_holds
        · exact ⟨caches, lock, Function.update_self ..⟩
        intro q different
        apply (inv.phase q).congr fun j x caches _ => caches
        · intro j held
          exact ⟨held, Function.update_of_ne (others lock different held) .., rfl⟩
        · exact fun _ held => held
      pointer := by
        intro x q held
        rw [phase_update Phase.fills fills]
        exact inv.pointer x q held
      valid := by
        intro j q held
        rw [phase_update Phase.fills fills]
        by_cases same : j = i
        · exact Or.inl (by simp [same])
        · simp only [Function.update_of_ne same]
          exact inv.valid j q held
      dirtyValid := by
        intro j dirty
        by_cases same : j = i
        · simp [same]
        · simp only [Function.update_of_ne same]
          exact inv.dirtyValid j dirty
      view := by
        intro j x caches'
        by_cases same : j = i
        · subst same
          rw [Caches.block caches caches']
          have unread := inv.view j b caches
          simp only [invalid, Bool.false_eq_true, if_false] at unread
          simp [unread, caches.2]
        · simp only [Function.update_of_ne same]
          exact inv.view j x caches'
      dirty := by
        intro j x caches' dirty
        simp only [phase_update Phase.writes writes]
        exact inv.dirty j x caches' dirty }

/-- The caller of `bread` keeps the buffer in a variable. -/
theorem assign (inv : g.Inv quota log disk) (at' : g.phase p = .ready b i) :
    Joint.Inv quota log disk
      { g with
        cache :=
          { g.cache with
            pointer := Function.update g.cache.pointer p
              (Function.update (g.cache.pointer p) b (some i)) }
        phase := Function.update g.phase p .idle } := by
  have here : g.cache.Caches i b ∧ g.cache.lock i = some p ∧
      g.cache.valid i = true := by
    simpa [at', Phase.Holds] using inv.phase p
  rcases here with ⟨caches, lock, valid⟩
  have filled : (g.phase p).fills = some (b, i) := by rw [at']; rfl
  have writes : Phase.idle.writes = (g.phase p).writes := by rw [at']; rfl
  have waits : Phase.idle.waits = (g.phase p).waits := by rw [at']; rfl
  have releases : Phase.idle.releases = (g.phase p).releases := by rw [at']; rfl
  exact
    { inv with
      waiting := by
        intro q
        rw [phase_update Phase.waits waits]
        exact inv.waiting q
      releasing := by
        intro q
        rw [phase_update Phase.releases releases]
        exact inv.releasing q
      phase := phase_holds trivial fun q _ => inv.phase q
      pointer := by
        intro x q held
        by_cases mine : q = p
        · subst mine
          right
          simp only [Function.update_self]
          by_cases same : x = b
          · subst same
            exact ⟨i, Function.update_self .., caches, lock⟩
          · rw [Function.update_of_ne same]
            rcases inv.pointer x q held with ⟨j, filling⟩ | known
            · rw [filled] at filling
              cases filling
              exact absurd rfl same
            · exact known
        · simp only [Function.update_of_ne mine]
          exact inv.pointer x q held
      valid := by
        intro j q held
        by_cases mine : q = p
        · subst mine
          rcases inv.valid j q held with valid' | ⟨x, filling⟩
          · exact Or.inl valid'
          · rw [filled] at filling
            cases filling
            exact Or.inl valid
        · simp only [Function.update_of_ne mine]
          exact inv.valid j q held
      dirty := by
        intro j x caches' dirty
        simp only [phase_update Phase.writes writes]
        exact inv.dirty j x caches' dirty }

/-! ## Using a buffer -/

/-- The holder of a block finds its buffer in the variable, with its data. -/
theorem held (inv : g.Inv quota log disk) (idle : g.phase p = .idle)
    (holder : g.abs.shared.holder b = some p) :
    ∃ i, g.cache.pointer p b = some i ∧ g.cache.Caches i b ∧
      g.cache.lock i = some p ∧ g.cache.valid i = true ∧
      g.cache.data i = g.abs.shared.view b := by
  have nothing : (g.phase p).fills = none := by rw [idle]; rfl
  rcases inv.pointer b p holder with ⟨_, filling⟩ | ⟨i, pointer, caches, lock⟩
  · rw [nothing] at filling
    cases filling
  · have valid : g.cache.valid i = true := by
      rcases inv.valid i p lock with valid | ⟨_, filling⟩
      · exact valid
      · rw [nothing] at filling
        cases filling
    refine ⟨i, pointer, caches, lock, valid, ?_⟩
    rw [inv.view i b caches, if_pos valid]

theorem store (inv : g.Inv quota log disk) {data : Block}
    (caches : g.cache.Caches i b) (lock : g.cache.lock i = some p)
    (valid : g.cache.valid i = true) {prog : Pid → Prog Logging.Act Unit}
    (run : (arrayUsers quota).Reachable (Logging.initial log disk)
      ⟨{ g.abs.shared with
          view := Function.update g.abs.shared.view b data }, prog⟩) :
    Joint.Inv quota log disk
      { g with
        cache := { g.cache with data := Function.update g.cache.data i data }
        abs :=
          ⟨{ g.abs.shared with
              view := Function.update g.abs.shared.view b data }, prog⟩ } :=
  { inv with
    run := run
    view := by
      intro j x caches'
      by_cases same : j = i
      · subst same
        rw [Caches.block caches caches']
        simp [valid]
      · have other : x ≠ b := by
          rintro rfl
          exact same (inv.unique j i x caches' caches)
        simp only [Function.update_of_ne same, Function.update_of_ne other]
        exact inv.view j x caches'
    uncached := by
      intro x nobody
      have other : x ≠ b := by
        rintro rfl
        exact nobody i caches
      simp only [Function.update_of_ne other]
      exact inv.uncached x nobody
    settled := by
      intro x unheld
      have other : x ≠ b := by
        rintro rfl
        rw [(inv.holder x p).mpr ⟨i, caches, lock⟩] at unheld
        cases unheld
      simp only [Function.update_of_ne other]
      exact inv.settled x unheld }

/-- `bwrite` sets `B_DIRTY`. -/
theorem markDirty (inv : g.Inv quota log disk) (idle : g.phase p = .idle)
    (caches : g.cache.Caches i b) (lock : g.cache.lock i = some p)
    (valid : g.cache.valid i = true) :
    Joint.Inv quota log disk
      { g with
        cache := { g.cache with dirty := Function.update g.cache.dirty i true }
        phase := Function.update g.phase p (.writing b i) } := by
  have fills : (Phase.writing b i).fills = (g.phase p).fills := by rw [idle]; rfl
  have waits : (Phase.writing b i).waits = (g.phase p).waits := by rw [idle]; rfl
  have releases : (Phase.writing b i).releases = (g.phase p).releases := by
    rw [idle]
    rfl
  exact
    { inv with
      unused := by
        intro j other
        have different : j ≠ i := by
          rintro rfl
          exact other caches.1
        simp only [Function.update_of_ne different]
        exact inv.unused j other
      waiting := by
        intro q
        rw [phase_update Phase.waits waits]
        exact inv.waiting q
      releasing := by
        intro q
        rw [phase_update Phase.releases releases]
        exact inv.releasing q
      phase := by
        apply phase_holds
        · exact ⟨caches, lock, valid, Function.update_self ..⟩
        intro q different
        apply (inv.phase q).congr fun j x caches _ => caches
        · intro j held
          exact ⟨held, rfl, Function.update_of_ne (others lock different held) ..⟩
        · exact fun _ held => held
      pointer := by
        intro x q held
        rw [phase_update Phase.fills fills]
        exact inv.pointer x q held
      valid := by
        intro j q held
        rw [phase_update Phase.fills fills]
        exact inv.valid j q held
      dirtyValid := by
        intro j dirty
        by_cases same : j = i
        · rw [same]
          exact valid
        · simp only [Function.update_of_ne same] at dirty
          exact inv.dirtyValid j dirty
      pinned := by
        intro x dirty
        rcases inv.pinned x dirty with ⟨j, caches', dirty'⟩
        refine ⟨j, caches', ?_⟩
        by_cases same : j = i
        · simp [same]
        · simpa [same] using dirty'
      dirty := by
        intro j x caches' dirty
        by_cases same : j = i
        · subst same
          rw [Caches.block caches caches']
          exact Or.inr ⟨p, by simp [Phase.writes]⟩
        · simp only [Function.update_of_ne same] at dirty
          refine (inv.dirty j x caches' dirty).imp_right ?_
          rintro ⟨q, writing⟩
          have other : q ≠ p := by
            rintro rfl
            rw [idle] at writing
            cases writing
          exact ⟨q, by simpa [other] using writing⟩ }

/-- `sdrw` writes the block. -/
theorem writeOut (inv : g.Inv quota log disk) (at' : g.phase p = .writing b i)
    {written : List Nat} {prog : Pid → Prog Logging.Act Unit}
    (run : (arrayUsers quota).Reachable (Logging.initial log disk)
      ⟨{ g.abs.shared with
          disk := Function.update g.abs.shared.disk b (g.abs.shared.view b)
          dirty := Function.update g.abs.shared.dirty b false
          written := written }, prog⟩) :
    Joint.Inv quota log disk
      { cache := g.cache.transfer i
        abs :=
          ⟨{ g.abs.shared with
              disk := Function.update g.abs.shared.disk b (g.abs.shared.view b)
              dirty := Function.update g.abs.shared.dirty b false
              written := written }, prog⟩
        phase := Function.update g.phase p .idle } := by
  have here : g.cache.Caches i b ∧ g.cache.lock i = some p ∧
      g.cache.valid i = true ∧ g.cache.dirty i = true := by
    simpa [at', Phase.Holds] using inv.phase p
  rcases here with ⟨caches, lock, valid, dirty⟩
  have content := inv.view i b caches
  rw [if_pos valid] at content
  have fills : Phase.idle.fills = (g.phase p).fills := by rw [at']; rfl
  have waits : Phase.idle.waits = (g.phase p).waits := by rw [at']; rfl
  have releases : Phase.idle.releases = (g.phase p).releases := by rw [at']; rfl
  rw [Cache.transfer, if_pos dirty]
  exact
    { inv with
      run := run
      unused := by
        intro j other
        have different : j ≠ i := by
          rintro rfl
          exact other caches.1
        simp only [Function.update_of_ne different]
        exact inv.unused j other
      waiting := by
        intro q
        rw [phase_update Phase.waits waits]
        exact inv.waiting q
      releasing := by
        intro q
        rw [phase_update Phase.releases releases]
        exact inv.releasing q
      phase := by
        apply phase_holds
        · trivial
        intro q different
        apply (inv.phase q).congr fun j x caches _ => caches
        · intro j held
          have apart := others lock different held
          exact ⟨held, Function.update_of_ne apart .., Function.update_of_ne apart ..⟩
        · exact fun _ held => held
      pointer := by
        intro x q held
        rw [phase_update Phase.fills fills]
        exact inv.pointer x q held
      valid := by
        intro j q held
        rw [phase_update Phase.fills fills]
        by_cases same : j = i
        · exact Or.inl (by simp [same])
        · simp only [Function.update_of_ne same]
          exact inv.valid j q held
      dirtyValid := by
        intro j dirty'
        by_cases same : j = i
        · simp [same]
        · simp only [Function.update_of_ne same] at dirty' ⊢
          exact inv.dirtyValid j dirty'
      view := by
        intro j x caches'
        by_cases same : j = i
        · subst same
          rw [Caches.block caches caches']
          simp [content]
        · have other : x ≠ b := by
            rintro rfl
            exact same (inv.unique j i x caches' caches)
          have sector : x + MBR_BASE ≠ g.cache.blockno i := by
            rw [caches.2]
            omega
          simp only [Function.update_of_ne same, Function.update_of_ne sector]
          exact inv.view j x caches'
      uncached := by
        intro x nobody
        have other : x ≠ b := by
          rintro rfl
          exact nobody i caches
        have sector : x + MBR_BASE ≠ g.cache.blockno i := by
          rw [caches.2]
          omega
        simp only [Function.update_of_ne sector]
        exact inv.uncached x nobody
      disk := by
        intro x
        by_cases same : x = b
        · subst same
          simp [caches.2, content]
        · have sector : x + MBR_BASE ≠ g.cache.blockno i := by
            rw [caches.2]
            omega
          simp only [Function.update_of_ne same, Function.update_of_ne sector]
          exact inv.disk x
      pinned := by
        intro x dirty'
        by_cases same : x = b
        · simp [same] at dirty'
        · simp only [Function.update_of_ne same] at dirty'
          rcases inv.pinned x dirty' with ⟨j, caches', pinned⟩
          have other : j ≠ i := by
            rintro rfl
            exact same (Caches.block caches caches')
          exact ⟨j, caches', (Function.update_of_ne other ..).trans pinned⟩
      dirty := by
        intro j x caches' dirty'
        by_cases same : j = i
        · simp [same] at dirty'
        · have other : x ≠ b := by
            rintro rfl
            exact same (inv.unique j i x caches' caches)
          simp only [Function.update_of_ne same] at dirty'
          simp only [Function.update_of_ne other]
          refine (inv.dirty j x caches' dirty').imp_right ?_
          rintro ⟨q, writing⟩
          have elsewhere : q ≠ p := by
            rintro rfl
            rw [at'] at writing
            cases writing
            exact same rfl
          exact ⟨q, by simpa [elsewhere] using writing⟩
      settled := by
        intro x unheld
        by_cases same : x = b
        · subst same
          exact Or.inr (Function.update_self ..)
        · simp only [Function.update_of_ne same]
          exact inv.settled x unheld
      unhomed := by
        intro x
        simp only [Finset.mem_erase, inv.unhomed x, caches.2]
        constructor
        · rintro ⟨other, y, dirty', rfl⟩
          have apart : y ≠ b := by
            rintro rfl
            exact other rfl
          exact ⟨y, (Function.update_of_ne apart ..).trans dirty', rfl⟩
        · rintro ⟨y, dirty', rfl⟩
          by_cases same : y = b
          · simp [same] at dirty'
          · simp only [Function.update_of_ne same] at dirty'
            exact ⟨by omega, y, dirty', rfl⟩ }

/-- `log_write` pins the buffer. -/
theorem absorb (inv : g.Inv quota log disk) (caches : g.cache.Caches i b)
    (valid : g.cache.valid i = true) {prog : Pid → Prog Logging.Act Unit}
    (run : (arrayUsers quota).Reachable (Logging.initial log disk)
      ⟨g.abs.shared.absorb p b, prog⟩) :
    Joint.Inv quota log disk
      { g with
        cache := g.cache.absorb p i
        abs := ⟨g.abs.shared.absorb p b, prog⟩ } := by
  have block : g.cache.blockno i - MBR_BASE = b := by
    rw [caches.2]
    omega
  exact
    { inv with
      run := run
      ops := by simp only [Logging.State.absorb, Cache.absorb, block, inv.ops]
      unused := by
        intro j other
        have different : j ≠ i := by
          rintro rfl
          exact other caches.1
        simp only [Cache.absorb, Function.update_of_ne different]
        exact inv.unused j other
      phase := by
        intro q
        cases at' : g.phase q with
        | writing x j =>
            have holds := inv.phase q
            rw [at'] at holds
            rcases holds with ⟨caches', lock, valid', dirty⟩
            refine ⟨caches', lock, valid', ?_⟩
            by_cases same : j = i
            · simp [Cache.absorb, same]
            · simpa [Cache.absorb, same] using dirty
        | _ =>
            have holds := inv.phase q
            rw [at'] at holds
            exact holds
      dirtyValid := by
        intro j dirty
        by_cases same : j = i
        · rw [same]
          exact valid
        · simp only [Cache.absorb, Function.update_of_ne same] at dirty
          exact inv.dirtyValid j dirty
      pinned := by
        intro x dirty
        by_cases same : x = b
        · exact ⟨i, same ▸ caches, Function.update_self ..⟩
        · simp only [Logging.State.absorb, Function.update_of_ne same] at dirty
          rcases inv.pinned x dirty with ⟨j, caches', pinned⟩
          refine ⟨j, caches', ?_⟩
          by_cases here : j = i
          · simp [Cache.absorb, here]
          · simpa [Cache.absorb, here] using pinned
      dirty := by
        intro j x caches' dirty
        by_cases same : x = b
        · exact Or.inl (by simp [Logging.State.absorb, same])
        · have other : j ≠ i := by
            rintro rfl
            exact same (Caches.block caches caches')
          simp only [Cache.absorb, Function.update_of_ne other] at dirty
          simp only [Logging.State.absorb, Function.update_of_ne same]
          exact inv.dirty j x caches' dirty
      settled := by
        intro x unheld
        by_cases same : x = b
        · exact Or.inl (by simp [Logging.State.absorb, same])
        · simp only [Logging.State.absorb, Function.update_of_ne same]
          exact inv.settled x unheld
      unhomed := by
        intro x
        simp only [Cache.absorb, Logging.State.absorb, Finset.mem_insert, inv.unhomed x,
          caches.2]
        constructor
        · rintro (rfl | ⟨y, dirty, rfl⟩)
          · exact ⟨b, Function.update_self .., rfl⟩
          · refine ⟨y, ?_, rfl⟩
            by_cases same : y = b
            · simp [same]
            · simpa [same] using dirty
        · rintro ⟨y, dirty, rfl⟩
          by_cases same : y = b
          · exact Or.inl (by rw [same])
          · simp only [Function.update_of_ne same] at dirty
            exact Or.inr ⟨y, dirty, rfl⟩ }

/-- The critical sections on `log.lock` leave the buffers alone. -/
theorem onOps (inv : g.Inv quota log disk) {ops : Logging.Ops Pid}
    {prog : Pid → Prog Logging.Act Unit}
    (run : (arrayUsers quota).Reachable (Logging.initial log disk)
      ⟨{ g.abs.shared with toOps := ops }, prog⟩) :
    Joint.Inv quota log disk
      { g with
        cache := { g.cache with toOps := ops }
        abs := ⟨{ g.abs.shared with toOps := ops }, prog⟩ } :=
  { inv with
    run := run
    ops := rfl }

/-- A process looks at a block. -/
theorem look (inv : g.Inv quota log disk) {prog : Pid → Prog Logging.Act Unit}
    (run : (arrayUsers quota).Reachable (Logging.initial log disk)
      ⟨g.abs.shared, prog⟩) :
    Joint.Inv quota log disk { g with abs := ⟨g.abs.shared, prog⟩ } :=
  { inv with run := run }

/-! ## `brelse` -/

/-- The block is free in the array as soon as the sleep-lock is. -/
theorem releasesleep (inv : g.Inv quota log disk) (idle : g.phase p = .idle)
    (caches : g.cache.Caches i b) (lock : g.cache.lock i = some p)
    (kept : g.abs.shared.dirty b = true ∨ g.abs.shared.disk b = g.abs.shared.view b)
    {prog : Pid → Prog Logging.Act Unit}
    (run : (arrayUsers quota).Reachable (Logging.initial log disk)
      ⟨{ g.abs.shared with
          holder := Function.update g.abs.shared.holder b none }, prog⟩) :
    Joint.Inv quota log disk
      { cache := g.cache.releasesleep p i
        abs :=
          ⟨{ g.abs.shared with
              holder := Function.update g.abs.shared.holder b none }, prog⟩
        phase := Function.update g.phase p (.releasing i) } := by
  have nowhere : g.cache.releasing p = none := by
    rw [inv.releasing, idle]
    rfl
  have fills : (Phase.releasing i).fills = (g.phase p).fills := by rw [idle]; rfl
  have writes : (Phase.releasing i).writes = (g.phase p).writes := by rw [idle]; rfl
  have waits : (Phase.releasing i).waits = (g.phase p).waits := by rw [idle]; rfl
  exact
    { inv with
      run := run
      refcnt := Cache.releasesleep_counts inv.refcnt lock nowhere
      waiting := by
        intro q
        rw [phase_update Phase.waits waits]
        exact inv.waiting q
      releasing := by
        intro q
        by_cases same : q = p
        · subst same
          simp [Cache.releasesleep, Phase.releases]
        · simpa [Cache.releasesleep, same] using inv.releasing q
      phase := by
        apply phase_holds
        · simp [Phase.Holds, Cache.releasesleep]
        intro q different
        apply (inv.phase q).congr fun j x caches _ => caches
        · intro j held
          have apart := others lock different held
          exact ⟨(Function.update_of_ne apart ..).trans held, rfl, rfl⟩
        · intro j held
          have apart : j ≠ i := by
            rintro rfl
            simp [Cache.releasesleep] at held
          exact (Function.update_of_ne apart ..).symm.trans held
      holder := by
        intro x q
        by_cases same : x = b
        · subst same
          simp only [Function.update_self, reduceCtorEq, false_iff]
          rintro ⟨j, caches', held⟩
          rw [inv.unique j i x caches' caches] at held
          simp [Cache.releasesleep] at held
        · simp only [Function.update_of_ne same]
          rw [inv.holder x q]
          have other : ∀ j, g.cache.Caches j x → j ≠ i := by
            rintro j caches' rfl
            exact same (Caches.block caches caches')
          constructor
          · rintro ⟨j, caches', held⟩
            exact ⟨j, caches', (Function.update_of_ne (other j caches') ..).trans held⟩
          · rintro ⟨j, caches', held⟩
            exact ⟨j, caches',
              (Function.update_of_ne (other j caches') ..).symm.trans held⟩
      pointer := by
        intro x q held
        rw [phase_update Phase.fills fills]
        have other : x ≠ b := by
          rintro rfl
          simp at held
        simp only [Function.update_of_ne other] at held
        refine (inv.pointer x q held).imp_right ?_
        rintro ⟨j, pointer, caches', lock'⟩
        have apart : j ≠ i := by
          rintro rfl
          exact other (Caches.block caches caches')
        exact ⟨j, pointer, caches', (Function.update_of_ne apart ..).trans lock'⟩
      valid := by
        intro j q held
        rw [phase_update Phase.fills fills]
        have apart : j ≠ i := by
          rintro rfl
          simp [Cache.releasesleep] at held
        simp only [Cache.releasesleep, Function.update_of_ne apart] at held
        exact inv.valid j q held
      dirty := by
        intro j x caches' dirty
        simp only [phase_update Phase.writes writes]
        exact inv.dirty j x caches' dirty
      settled := by
        intro x unheld
        by_cases same : x = b
        · subst same
          exact kept
        · simp only [Function.update_of_ne same] at unheld
          exact inv.settled x unheld
      served := inv.served.releasesleep lock nowhere }

theorem unref (inv : g.Inv quota log disk) (at' : g.phase p = .releasing i) :
    Joint.Inv quota log disk
      { g with
        cache := g.cache.unref p i
        phase := Function.update g.phase p .idle } := by
  have releases : g.cache.releasing p = some i := by
    rw [inv.releasing, at']
    rfl
  have fills : Phase.idle.fills = (g.phase p).fills := by rw [at']; rfl
  have writes : Phase.idle.writes = (g.phase p).writes := by rw [at']; rfl
  have waits : Phase.idle.waits = (g.phase p).waits := by rw [at']; rfl
  have positive := Cache.refcnt_pos inv.refcnt releases
  have unlocked : g.cache.lock i ≠ some p := by
    simpa [at', Phase.Holds] using inv.phase p
  have nowhere : g.cache.waiting p = none := by
    rw [inv.waiting, at']
    rfl
  have root : g.cache.dev i = ROOTDEV := by
    by_contra other
    have zero := (inv.unused i other).2.1
    omega
  exact
    { inv with
      listed := by
        intro j
        simp only [Cache.unref]
        split
        · by_cases same : j = i
          · exact List.mem_cons.mpr (Or.inl same)
          · exact List.mem_cons_of_mem _
              ((List.mem_erase_of_ne same).mpr (inv.listed j))
        · exact inv.listed j
      unused := by
        intro j other
        have different : j ≠ i := by
          rintro rfl
          have zero := (inv.unused j other).2.1
          omega
        simp only [Cache.unref, Function.update_of_ne different]
        exact inv.unused j other
      refcnt := Cache.unref_counts inv.refcnt releases
      waiting := by
        intro q
        rw [phase_update Phase.waits waits]
        exact inv.waiting q
      releasing := by
        intro q
        by_cases same : q = p
        · subst same
          simp [Cache.unref, Phase.releases]
        · simpa [Cache.unref, same] using inv.releasing q
      phase := phase_holds trivial fun q _ => inv.phase q
      pointer := by
        intro x q held
        rw [phase_update Phase.fills fills]
        exact inv.pointer x q held
      valid := by
        intro j q held
        rw [phase_update Phase.fills fills]
        exact inv.valid j q held
      dirty := by
        intro j x caches' dirty
        simp only [phase_update Phase.writes writes]
        exact inv.dirty j x caches' dirty
      served := by
        apply inv.served.unref releases unlocked nowhere
        intro j root' sector
        rcases inv.number i root with ⟨b, caches⟩
        exact inv.unique j i b ⟨root', sector.trans caches.2⟩ caches }

end Joint.Inv

end PiKernel.Bio
