import PiKernel.Bio.Coherence

/-!
# The supply of buffers

`bget` panics when a block is not cached and every buffer is in use.  What is in
use is what the callers have asked for: the blocks that readers outside any
operation, the operations, and the commit have read and not yet given back, and
the blocks that have been logged and are not yet home.  The cache serves every
call as long as these, with the block now asked for, are at most `NBUF` blocks.

`begin_op` bounds what operations log, but nothing bounds the readers: a process
that reads a file holds a buffer outside any operation, and `NBUF` of them hold
all buffers.
-/

namespace PiKernel.Bio

open PiKernel.Conc

variable {Pid : Type} [DecidableEq Pid] [Fintype Pid]

/-! ## The demand -/

/-- The sectors in the hands of processes outside any operation. -/
def Cache.readers (s : Cache Pid) : Finset Nat :=
  (Finset.univ.filter fun p => (s.current p).isNone).biUnion s.asked

/-- The sectors in the hands of processes in an operation. -/
def Cache.operations (s : Cache Pid) : Finset Nat :=
  (Finset.univ.filter fun p => (s.current p).isSome).biUnion s.asked

/-- What the callers need buffers for. -/
def Cache.demand (s : Cache Pid) : Finset Nat :=
  s.readers ∪ s.operations ∪ s.unhomed

/-- The callers never need more than `NBUF` buffers, counting the call at hand. -/
def withinSupply : {β : Type} → Act β → Pid → Cache Pid → Bool
  | _, .bget _ blockno, _, s => (insert blockno s.demand).card ≤ NBUF
  | _, _, _, _ => true

/-- The readers and the operations need few buffers, and few blocks are logged. -/
def frugal (read used logged : Nat) : {β : Type} → Act β → Pid → Cache Pid → Bool
  | _, .bget _ _, _, s =>
      s.readers.card ≤ read && s.operations.card ≤ used && s.unhomed.card ≤ logged
  | _, _, _, _ => true

/-- A process is at the buffer, or the block in it is logged or being written. -/
def Cache.InUse (s : Cache Pid) (i : Fin NBUF) : Prop :=
  (∃ p, s.At p i) ∨ s.dirty i = true

omit [DecidableEq Pid] in
theorem Cache.mem_demand {s : Cache Pid} {x : Nat} :
    x ∈ s.demand ↔ (∃ p, x ∈ s.asked p) ∨ x ∈ s.unhomed := by
  simp only [demand, readers, operations, Finset.mem_union, Finset.mem_biUnion,
    Finset.mem_filter, Finset.mem_univ, true_and, Option.isNone_iff_eq_none]
  refine or_congr_left ⟨?_, ?_⟩
  · rintro (⟨p, _, asked⟩ | ⟨p, _, asked⟩)
    · exact ⟨p, asked⟩
    · exact ⟨p, asked⟩
  · rintro ⟨p, asked⟩
    cases op : s.current p with
    | none => exact Or.inl ⟨p, op, asked⟩
    | some ops => exact Or.inr ⟨p, by rw [op]; rfl, asked⟩

omit [DecidableEq Pid] in
theorem frugal_withinSupply {read used logged : Nat} (few : read + used + logged < NBUF)
    {β : Type} {action : Act β} {p : Pid} {s : Cache Pid}
    (met : frugal read used logged action p s = true) :
    withinSupply action p s = true := by
  cases action with
  | bget dev blockno =>
      simp only [frugal, Bool.and_eq_true, decide_eq_true_eq] at met
      rcases met with ⟨⟨readers, operations⟩, unhomed⟩
      have more := Finset.card_insert_le blockno s.demand
      have whole : s.demand.card ≤ (s.readers ∪ s.operations).card + s.unhomed.card :=
        Finset.card_union_le ..
      have parts := Finset.card_union_le s.readers s.operations
      exact decide_eq_true (by omega)
  | _ => rfl

variable {dry : Prop} {quota : Finset Nat → Bool} {log : Logging.Log} {disk : Nat → Block}
    {g : Joint Pid} {p : Pid} {i : Fin NBUF} {dev blockno : Nat}

/-! ## The demand and the buffers -/

omit [DecidableEq Pid] in
theorem countAt_eq_zero {place : Pid → Option (Fin NBUF)} :
    countAt place i = 0 ↔ ∀ p, place p ≠ some i := by
  rw [countAt, Finset.card_eq_zero, Finset.filter_eq_empty_iff]
  simp

namespace Joint.Inv

/-- The test of the second loop of `bget` says whether a buffer is in use. -/
theorem unused_iff (inv : g.Inv quota log disk) :
    g.cache.refcnt i = 0 ∧ g.cache.dirty i = false ↔ ¬ g.cache.InUse i := by
  have free : holders (g.cache.lock i) = 0 ↔ ∀ p, g.cache.lock i ≠ some p := by
    cases lock : g.cache.lock i with
    | none => simp [holders]
    | some q => simp [holders]
  rw [inv.refcnt i, Cache.references, Nat.add_eq_zero_iff, Nat.add_eq_zero_iff, free,
    countAt_eq_zero, countAt_eq_zero]
  simp only [Cache.InUse, Cache.At, not_or, not_exists, Bool.not_eq_true]
  constructor
  · rintro ⟨⟨⟨lock, waits⟩, releases⟩, clean⟩
    exact ⟨fun p => ⟨lock p, waits p, releases p⟩, clean⟩
  · rintro ⟨nobody, clean⟩
    exact ⟨⟨⟨fun p => (nobody p).1, fun p => (nobody p).2.1⟩,
      fun p => (nobody p).2.2⟩, clean⟩

theorem root (inv : g.Inv quota log disk) (used : g.cache.InUse i) :
    g.cache.dev i = ROOTDEV := by
  by_contra other
  exact inv.unused_iff.mp (inv.unused i other).2 used

/-- The callers need exactly the sectors of the buffers in use. -/
theorem mem_demand (inv : g.Inv quota log disk) {x : Nat} :
    x ∈ g.cache.demand ↔ ∃ i, g.cache.InUse i ∧ g.cache.blockno i = x := by
  rw [Cache.mem_demand]
  constructor
  · rintro (⟨p, asked⟩ | logged)
    · rcases (inv.served p x).mp asked with ⟨i, _, sector, here⟩
      exact ⟨i, Or.inl ⟨p, here⟩, sector⟩
    · rcases (inv.unhomed x).mp logged with ⟨b, dirty, rfl⟩
      rcases inv.pinned b dirty with ⟨i, caches, dirty'⟩
      exact ⟨i, Or.inr dirty', caches.2⟩
  · rintro ⟨i, used, rfl⟩
    have root := inv.root used
    rcases used with ⟨p, here⟩ | dirty
    · exact Or.inl ⟨p, (inv.served p _).mpr ⟨i, root, rfl, here⟩⟩
    · rcases inv.number i root with ⟨b, caches⟩
      rcases inv.dirty i b caches dirty with logged | ⟨p, writing⟩
      · exact Or.inr ((inv.unhomed _).mpr ⟨b, logged, caches.2.symm⟩)
      · have lock : g.cache.lock i = some p := by
          have holds := inv.phase p
          cases at' : g.phase p with
          | writing x j =>
              rw [at'] at holds writing
              cases writing
              exact holds.2.1
          | _ =>
              rw [at'] at writing
              cases writing
        exact Or.inl ⟨p, (inv.served p _).mpr ⟨i, root, rfl, Or.inl lock⟩⟩

theorem find_eq_none (inv : g.Inv quota log disk) :
    g.cache.find dev blockno = none ↔
      ¬ ∃ i, g.cache.dev i = dev ∧ g.cache.blockno i = blockno := by
  rw [Cache.find, List.find?_eq_none]
  constructor
  · rintro missed ⟨i, same⟩
    exact missed i (inv.listed i) (by simp [same])
  · intro absent i _ same
    exact absent ⟨i, by simpa using same⟩

theorem spare_eq_none (inv : g.Inv quota log disk) :
    g.cache.spare = none ↔ ∀ i, g.cache.InUse i := by
  rw [Cache.spare, List.find?_eq_none]
  constructor
  · intro missed i
    have taken := missed i (List.mem_reverse.mpr (inv.listed i))
    by_contra unused
    exact taken (by simpa using inv.unused_iff.mpr unused)
  · intro used i _ unused
    refine inv.unused_iff.mp ?_ (used i)
    simpa using unused

/-- No two buffers in use have one sector. -/
theorem sectors_inj (inv : g.Inv quota log disk) {i j : Fin NBUF}
    (used : g.cache.InUse i) (used' : g.cache.InUse j)
    (same : g.cache.blockno i = g.cache.blockno j) : i = j := by
  rcases inv.number i (inv.root used) with ⟨b, caches⟩
  exact inv.unique i j b caches ⟨inv.root used', same.symm.trans caches.2⟩

open Classical in
theorem demand_card (inv : g.Inv quota log disk) :
    g.cache.demand.card = (Finset.univ.filter g.cache.InUse).card := by
  have image : g.cache.demand =
      (Finset.univ.filter g.cache.InUse).image g.cache.blockno := by
    ext x
    simp [inv.mem_demand]
  rw [image, Finset.card_image_of_injOn]
  intro i used j used' same
  exact inv.sectors_inj (Finset.mem_filter.mp used).2 (Finset.mem_filter.mp used').2 same

open Classical in
/-- `bget` finds no buffer exactly when the callers need too many. -/
theorem starves_iff (inv : g.Inv quota log disk) :
    (g.cache.bget p ROOTDEV blockno).1 = none ↔
      withinSupply (.bget ROOTDEV blockno) p g.cache = false := by
  have count : (Finset.univ.filter g.cache.InUse).card ≤ NBUF :=
    (Finset.card_le_univ _).trans_eq (Fintype.card_fin NBUF)
  have all : (Finset.univ.filter g.cache.InUse).card < NBUF ↔ ¬ ∀ i, g.cache.InUse i := by
    have proper := Finset.card_lt_iff_ne_univ (Finset.univ.filter g.cache.InUse)
    rw [Fintype.card_fin] at proper
    rw [proper, ne_eq, Finset.filter_eq_self]
    simp
  rw [← inv.demand_card] at count all
  rw [withinSupply, decide_eq_false_iff_not]
  cases found : g.cache.find ROOTDEV blockno with
  | some i =>
      -- A cached block is in demand already, or its buffer is to spare.
      have fits : (insert blockno g.cache.demand).card ≤ NBUF := by
        by_cases wanted : blockno ∈ g.cache.demand
        · rw [Finset.insert_eq_of_mem wanted]
          exact count
        · have cached : ∃ i, g.cache.dev i = ROOTDEV ∧ g.cache.blockno i = blockno := by
            by_contra absent
            rw [inv.find_eq_none.mpr absent] at found
            cases found
          rcases cached with ⟨j, _, sector⟩
          have spare : g.cache.demand.card < NBUF :=
            all.mpr fun used => wanted (inv.mem_demand.mpr ⟨j, used j, sector⟩)
          exact (Finset.card_insert_le ..).trans spare
      simp [Cache.bget, found, fits]
  | none =>
      have missing : blockno ∉ g.cache.demand := by
        intro wanted
        rcases inv.mem_demand.mp wanted with ⟨i, used, sector⟩
        exact inv.find_eq_none.mp found ⟨i, inv.root used, sector⟩
      rw [Finset.card_insert_of_notMem missing, Nat.succ_le_iff, all, not_not,
        ← inv.spare_eq_none]
      cases spare : g.cache.spare with
      | some i => simp [Cache.bget, found, spare]
      | none => simp [Cache.bget, found, spare]

end Joint.Inv

/-! ## Runs -/

/-- A block is asked for on the root device. -/
def Act.OnRoot : {β : Type} → Act β → Prop
  | _, .bget dev _ => dev = ROOTDEV
  | _, _ => True

theorem Matches.onRoot {pointer : Nat → Option (Fin NBUF)} {phase : Phase}
    {rest : Prog Logging.Act Unit} {β : Type} {action : Act β} {next : β → Prog Act Unit}
    (left : Matches dry pointer phase rest (.act action next)) : action.OnRoot := by
  cases left with
  | between same =>
      cases rest with
      | ret value => cases same
      | panic message => cases same
      | act high rest =>
          cases high with
          | bread b =>
              cases same
              rfl
          | _ =>
              cases same
              trivial
  | _ => trivial

theorem Joint.Explains.starves_iff {config : Config Act Pid (Cache Pid)}
    (explains : g.Explains dry quota log disk config)
    {next : Option (Fin NBUF) → Prog Act Unit}
    (current : config.prog p = .act (.bget dev blockno) next) :
    (config.shared.bget p dev blockno).1 = none ↔
      withinSupply (.bget dev blockno) p config.shared = false := by
  rcases explains with ⟨inv, same, left⟩
  have root : dev = ROOTDEV := (current ▸ left p).onRoot
  rw [root, ← same]
  exact inv.starves_iff

/-- In a run that meets the condition, the ghost state knows of no panic of `bget`. -/
theorem Joint.Explains.supplied_step {config config' : Config Act Pid (Cache Pid)}
    (explains : g.Explains False quota log disk config)
    (step : ((cacheUsers quota).restrict withinSupply).Step config config') :
    ∃ g' : Joint Pid, g'.Explains False quota log disk config' := by
  cases step with
  | start idle permitted =>
      rcases explains.start idle permitted with ⟨g', _, explains'⟩
      exact ⟨g', explains'⟩
  | @done q γ action next value state current effect =>
      simp only [System.restrict] at effect
      split at effect
      · rename_i met
        have fed : action.Starves q config.shared → False := by
          intro starves
          cases action with
          | bget dev blockno =>
              rw [(explains.starves_iff current).mp starves] at met
              cases met
          | _ => exact starves
        rcases explains.done current effect fed with ⟨g', _, explains'⟩
        exact ⟨g', explains'⟩
      · cases effect
  | @again q γ action next state current effect =>
      simp only [System.restrict] at effect
      split at effect
      · rcases explains.again current effect with ⟨g', _, explains'⟩
        exact ⟨g', explains'⟩
      · cases effect

theorem explained {config : Config Act Pid (Cache Pid)}
    (run : ((cacheUsers quota).restrict withinSupply).Reachable (booted log disk) config) :
    ∃ g : Joint Pid, g.Explains False quota log (partition disk) config := by
  induction run with
  | refl => exact ⟨_, booting_explains False quota log disk⟩
  | tail _ step ih =>
      rcases ih with ⟨g, explains⟩
      exact explains.supplied_step step

theorem Joint.Explains.fed {config : Config Act Pid (Cache Pid)}
    (explains : g.Explains False quota log disk config) (p : Pid) :
    config.prog p ≠ .panic "bget: no buffers\n" := by
  intro panicked
  rcases explains with ⟨inv, _, left⟩
  have mine := left p
  rw [panicked] at mine
  rcases mine.panics inv with ⟨_, impossible⟩ | first | second
  · exact impossible
  · exact absurd first (by decide)
  · exact absurd second (by decide)

/--
While the blocks that the callers have in hand or logged, with the one asked
for, are at most `NBUF`, no process finds the cache without a buffer.  The
condition cannot be weakened: at a call that breaks it there is no buffer.
-/
theorem bget_finds_buffer {config : Config Act Pid (Cache Pid)}
    (run : ((cacheUsers quota).restrict withinSupply).Reachable (booted log disk) config) :
    (∀ p, config.prog p ≠ .panic "bget: no buffers\n") ∧
      ∀ p dev blockno next, config.prog p = .act (.bget dev blockno) next →
        ((config.shared.bget p dev blockno).1 ≠ none ↔
          withinSupply (.bget dev blockno) p config.shared = true) := by
  rcases explained run with ⟨g, explains⟩
  refine ⟨explains.fed, fun p dev blockno next current => ?_⟩
  rw [← Bool.not_eq_false, not_iff_not]
  exact explains.starves_iff current

/--
Bounds on the blocks that readers and operations have in hand, and on the blocks
that are logged, leave a buffer for every call.
-/
theorem bget_finds_buffer_frugal {read used logged : Nat}
    (few : read + used + logged < NBUF) {config : Config Act Pid (Cache Pid)}
    (run : ((cacheUsers quota).restrict (frugal read used logged)).Reachable
      (booted log disk) config) (p : Pid) :
    config.prog p ≠ .panic "bget: no buffers\n" := by
  have met : ((cacheUsers quota).restrict withinSupply).Reachable (booted log disk) config :=
    System.restrict_mono (fun _ _ _ => frugal_withinSupply few) run
  rcases explained met with ⟨g, explains⟩
  exact explains.fed p

/-- Every operation logs at most `MAXOPBLOCKS` blocks. -/
def withinMax (ops : Finset Nat) : Bool :=
  ops.card ≤ MAXOPBLOCKS

/-- A process is at the call of `bread` that reads block `b`. -/
def atBget (program : Prog Act Unit) (b : Nat) : Bool :=
  match program with
  | .act (.bget dev blockno) _ => dev == ROOTDEV && blockno == b + MBR_BASE
  | _ => false

/-- One process reads a block, and another is about to. -/
def twoReaders : List (Event Bool Use) :=
  callFor true (.bread 100) 6 ++ callFor false (.bread 101) 0

/-- The second reader finds a buffer, as one buffer of the cache is in use. -/
theorem bget_finds_buffer_twoReaders :
    ∃ config : Config Act Bool (Cache Bool),
      ((cacheUsers withinMax).restrict withinSupply).Reachable
          (booted Logging.mkfsLog fun _ _ => 0) config ∧
        (config.shared.demand.card = 1 ∧ atBget (config.prog false) 101 = true) ∧
        (∀ p, config.prog p ≠ .panic "bget: no buffers\n") ∧
        ∀ p dev blockno next, config.prog p = .act (.bget dev blockno) next →
          ((config.shared.bget p dev blockno).1 ≠ none ↔
            withinSupply (.bget dev blockno) p config.shared = true) := by
  have ends :
      (((cacheUsers withinMax).restrict withinSupply).replay
          (fun use s p => use.permitted withinMax (s.holds p) (s.current p))
          (fun use => use.program.expand body) twoReaders
          (booted Logging.mkfsLog fun _ _ => 0)).any
        (fun config => config.shared.demand.card == 1 &&
          atBget (config.prog false) 101) = true := by
    decide
  rcases (Option.any_eq_true _ _).mp ends with ⟨config, replayed, here⟩
  simp only [Bool.and_eq_true, beq_iff_eq] at here
  have run :
      ((cacheUsers withinMax).restrict withinSupply).Reachable
        (booted Logging.mkfsLog fun _ _ => 0) config := by
    apply System.replay_reachable _ replayed
    intro use s p permitted
    exact ⟨use, permitted, rfl⟩
  exact ⟨config, run, here, bget_finds_buffer run⟩

/-- Thirty processes read a block each and hold it when one more wants to read. -/
def manyReaders : List (Event (Fin NPROC) Use) :=
  ((List.finRange NPROC).take NBUF).flatMap
      (fun p => callFor p (.bread (100 + p.val)) 2) ++
    callFor ⟨NBUF, by decide⟩ (.bread (100 + NBUF)) 1

/-- A process has run out of buffers. -/
def outOfBuffers : Prog Act Unit → Bool
  | .panic message => message == "bget: no buffers\n"
  | _ => false

/-- Readers alone exhaust the buffer cache. -/
theorem not_bget_finds_buffer :
    ¬ ∀ config : Config Act (Fin NPROC) (Cache (Fin NPROC)),
      (cacheUsers withinMax).Reachable (booted Logging.mkfsLog fun _ _ => 0) config →
        ∀ p, config.prog p ≠ .panic "bget: no buffers\n" := by
  intro always
  have ends :
      (replay withinMax manyReaders (booted Logging.mkfsLog fun _ _ => 0)).any
        (fun config => outOfBuffers (config.prog ⟨NBUF, by decide⟩)) = true := by
    decide
  rcases (Option.any_eq_true _ _).mp ends with ⟨config, replayed, wrong⟩
  unfold outOfBuffers at wrong
  split at wrong
  · rename_i message panicked
    rw [beq_iff_eq.mp wrong] at panicked
    exact always config (replay_reachable replayed) _ panicked
  · cases wrong

end PiKernel.Bio
