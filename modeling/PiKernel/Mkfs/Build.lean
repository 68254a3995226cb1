import PiKernel.Mkfs.Append

/-!
# Building the image

Inodes are allocated one after the other, and every file is appended to its inode piece
by piece.  The stages of `main` are those of the list of files that are entered.
-/

namespace PiKernel.Mkfs

open PiKernel.Bytes
open PiKernel.Fs

variable {s s' : Image} {g g' : Ghost} {inum : Nat} {d : Dinode} {bytes p : List UInt8}

/-! ## Writing an inode -/

/-- Only the block of the inode changes. -/
theorem winode_eq (inv : Inv s g inum) (allocated : s.Allocated inum) (d : Dinode) :
    s.winode inum d = some { s with
      view := Function.update s.view (sb.IBLOCK inum)
        (Dinode.write (s.view (sb.IBLOCK inum)) (inum % IPB) d) } := by
  have place := inv.IBLOCK allocated
  have bound : nmeta < FSSIZE := by decide
  have small := FSSIZE_small
  have inside : sb.IBLOCK inum < FSSIZE := by omega
  rw [Image.winode, inv.rsect (by omega), if_pos inside]
  simp only [Option.bind_eq_bind, Option.bind_some, Image.wsect_eq inv.length inside]
  rfl

/-- The inodes of a block are written one by one. -/
theorem dinode_write {view : Nat → Block} {j : Nat} :
    Dinode.read (Function.update view (sb.IBLOCK inum)
        (Dinode.write (view (sb.IBLOCK inum)) (inum % IPB) d) (sb.IBLOCK j)) (j % IPB) =
      if j = inum then d else Dinode.read (view (sb.IBLOCK j)) (j % IPB) := by
  by_cases here : j = inum
  · subst here
    rw [Function.update_self, if_pos rfl, Dinode.read_write_same (Nat.mod_lt _ (by decide))]
  · rw [if_neg here]
    by_cases block : sb.IBLOCK j = sb.IBLOCK inum
    · have other : j % IPB ≠ inum % IPB := by
        simp only [Superblock.IBLOCK, IPB] at block ⊢
        omega
      rw [block, Function.update_self, Dinode.read_write_other other]
    · rw [Function.update_of_ne block]

/-- What is left is to write the inode. -/
theorem Inv.sync (inv : Inv s g inum) (allocated : s.Allocated inum)
    (addrs : d.addrs = (g.node inum).addrs) (type : d.type = (g.node inum).type)
    (size : d.size.toNat = (g.bytes inum).length)
    (tight : g.count inum = blocks (g.bytes inum).length) :
    ∃ s', s.winode inum d = some s' ∧
      Inv s' (g.set inum d (g.bytes inum) (g.region inum) (g.count inum)) 0 ∧
      s'.freeinode = s.freeinode ∧ s'.freeblock = s.freeblock := by
  have place := inv.IBLOCK allocated
  have same : ∀ b, b ≠ sb.IBLOCK inum → Function.update s.view (sb.IBLOCK inum)
      (Dinode.write (s.view (sb.IBLOCK inum)) (inum % IPB) d) b = s.view b :=
    fun b other => Function.update_of_ne other ..
  refine ⟨_, winode_eq inv allocated d, ?_, rfl, rfl⟩
  constructor
  · exact inv.length
  · exact inv.low
  · exact inv.high
  · intro b free
    have low := inv.low.trans free
    exact (same b (by omega)).trans (inv.zero b free)
  · have later : 1 < sb.inodestart := by decide
    exact (same 1 (by omega)).trans inv.super
  · exact inv.few
  · intro j allocated'
    have stored : Stored (g.node j) (Function.update s.view (sb.IBLOCK inum)
        (Dinode.write (s.view (sb.IBLOCK inum)) (inum % IPB) d))
        (g.region j) (g.count j) (g.bytes j) := by
      apply (inv.stored j allocated').congr
      intro b member
      have low := (inv.inside j allocated' b member).1
      exact same b (by omega)
    by_cases here : j = inum
    · subst here
      rw [Ghost.node_set, Ghost.region_set, Ghost.count_set, Ghost.bytes_set]
      exact stored.of_addrs addrs
    · simp only [Ghost.set, Function.update_of_ne here]
      exact stored
  · intro j allocated' b member
    simp only [Ghost.set, Function.update_eq_self] at member
    exact inv.inside j allocated' b member
  · intro j k b allocated' allocated'' member member'
    simp only [Ghost.set, Function.update_eq_self] at member member'
    exact inv.apart j k b allocated' allocated'' member member'
  · intro j allocated'
    by_cases here : j = inum
    · subst here
      rw [Ghost.node_set, type]
      exact inv.type j allocated
    · simp only [Ghost.set, Function.update_of_ne here]
      exact inv.type j allocated'
  · intro j allocated' _
    rw [Image.dinode, dinode_write]
    by_cases here : j = inum
    · subst here
      rw [if_pos rfl, Ghost.node_set, Ghost.bytes_set, Ghost.count_set]
      exact ⟨rfl, size, tight⟩
    · rw [if_neg here]
      simp only [Ghost.set, Function.update_of_ne here]
      exact inv.synced j allocated' here

/-! ## Appending -/

/-- The bytes are appended to the file on disk. -/
structure Wrote (s : Image) (g : Ghost) (inum : Nat) (p : List UInt8) (s' : Image)
    (g' : Ghost) : Prop where
  inv : Inv s' g' 0
  bytes : g'.bytes = Function.update g.bytes inum (g.bytes inum ++ p)
  freeinode : s'.freeinode = s.freeinode
  freeblock : s'.freeblock = s.freeblock +
    (cost (blocks ((g.bytes inum).length + p.length)) - cost (blocks (g.bytes inum).length))

theorem toNat_small {n : Nat} (small : n < 2 ^ 32) : (UInt32.ofNat n).toNat = n := by
  rw [UInt32.toNat_ofNat']
  exact Nat.mod_eq_of_lt small

theorem MAXFILE_small : MAXFILE * BSIZE < 2 ^ 32 := by decide

theorem iappend_spec (inv : Inv s g 0) (allocated : s.Allocated inum) (p : List UInt8) :
    (Fits s g inum p.length → ∃ s' g', s.iappend inum p = some s' ∧
      Wrote s g inum p s' g') ∧
    (¬ Fits s g inum p.length → s.iappend inum p = none) := by
  have synced := inv.synced inum allocated (Nat.ne_of_gt allocated.1)
  have loop := iappendLoop_spec (le_refl p.length) (inv.writes inum) allocated synced.2.2
  rw [Image.iappend, inv.rinode allocated, synced.1]
  simp only [Option.bind_eq_bind, Option.bind_some, synced.2.1]
  constructor
  · intro fits
    obtain ⟨e, s₁, region, done, appended⟩ := loop.1 fits
    have allocated₁ : s₁.Allocated inum := by
      rw [Image.Allocated, appended.freeinode]
      exact allocated
    have small : (g.bytes inum).length + p.length < 2 ^ 32 :=
      lt_of_le_of_lt fits.1 MAXFILE_small
    have size := toNat_small small
    obtain ⟨s', written, inv', freeinode, freeblock⟩ :=
      appended.inv.sync (d := { e with
          size := UInt32.ofNat ((g.bytes inum).length + p.length) }) allocated₁
        (by rw [Ghost.node_set]) (by rw [Ghost.node_set])
        (by rw [Ghost.bytes_set, List.length_append]; exact size)
        (by rw [Ghost.count_set, Ghost.bytes_set, List.length_append])
    rw [done, Option.bind_some]
    refine ⟨s', _, written, inv', ?_, ?_, ?_⟩
    · simp [Ghost.set]
    · rw [freeinode, appended.freeinode]
    · rw [freeblock, appended.freeblock]
  · intro full
    rw [loop.2 full, Option.bind_none]

namespace Wrote

variable {q : List UInt8} {s₁ : Image} {g₁ : Ghost}

theorem nil (inv : Inv s g 0) : Wrote s g inum [] s g := by
  constructor
  · exact inv
  · rw [List.append_nil, Function.update_eq_self]
  · rfl
  · rw [List.length_nil, Nat.add_zero, Nat.sub_self, Nat.add_zero]

theorem length (first : Wrote s g inum p s₁ g₁) :
    (g₁.bytes inum).length = (g.bytes inum).length + p.length := by
  rw [first.bytes, Function.update_self, List.length_append]

theorem trans (first : Wrote s g inum p s₁ g₁) (second : Wrote s₁ g₁ inum q s' g') :
    Wrote s g inum (p ++ q) s' g' := by
  have before := cost_mono (blocks_mono (Nat.le_add_right (g.bytes inum).length p.length))
  have after := cost_mono
    (blocks_mono (Nat.le_add_right ((g.bytes inum).length + p.length) q.length))
  constructor
  · exact second.inv
  · rw [second.bytes, first.bytes, Function.update_self, Function.update_idem,
      List.append_assoc]
  · rw [second.freeinode, first.freeinode]
  · rw [second.freeblock, first.freeblock, first.length, List.length_append, ← Nat.add_assoc]
    omega

theorem fits (first : Wrote s g inum p s₁ g₁) (n : Nat) :
    Fits s₁ g₁ inum n ↔ Fits s g inum (p.length + n) := by
  have before := cost_mono (blocks_mono (Nat.le_add_right (g.bytes inum).length p.length))
  have after := cost_mono
    (blocks_mono (Nat.le_add_right ((g.bytes inum).length + p.length) n))
  have freeblock := first.freeblock
  simp only [Fits, first.length, ← Nat.add_assoc]
  omega

end Wrote

/-- The pieces of a file are appended one after the other. -/
theorem pieces_spec (pieces : List (List UInt8)) (inv : Inv s g 0)
    (allocated : s.Allocated inum) :
    (Fits s g inum pieces.flatten.length → ∃ s' g',
      pieces.foldlM (fun s piece => s.iappend inum piece) s = some s' ∧
        Wrote s g inum pieces.flatten s' g') ∧
    (¬ Fits s g inum pieces.flatten.length →
      pieces.foldlM (fun s piece => s.iappend inum piece) s = none) := by
  induction pieces generalizing s g with
  | nil =>
    constructor
    · intro _
      exact ⟨s, g, rfl, Wrote.nil inv⟩
    · intro full
      exact absurd (Fits.nil inv allocated) full
  | cons piece pieces ih =>
    have step := iappend_spec inv allocated piece
    rw [List.flatten_cons, List.length_append, List.foldlM_cons]
    by_cases room : Fits s g inum piece.length
    · obtain ⟨s₁, g₁, done, first⟩ := step.1 room
      have allocated₁ : s₁.Allocated inum := by
        rw [Image.Allocated, first.freeinode]
        exact allocated
      have rest := ih first.inv allocated₁
      rw [first.fits] at rest
      rw [done]
      constructor
      · intro fits
        obtain ⟨s', g', done', second⟩ := rest.1 fits
        exact ⟨s', g', done', first.trans second⟩
      · exact rest.2
    · constructor
      · intro fits
        exact absurd (fits.mono (Nat.le_add_right _ _)) room
      · intro _
        rw [step.2 room]
        rfl

/-! ## A new inode -/

/-- The next inode, before it is written. -/
theorem Inv.allocate (inv : Inv s g 0) (room : s.freeinode < ninodeblocks * IPB)
    {type : UInt16} (kind : type = if s.freeinode = ROOTINO then T_DIR else T_FILE) :
    Inv { s with freeinode := s.freeinode + 1 }
      (g.set s.freeinode (Dinode.fresh type) [] ∅ 0) s.freeinode := by
  have old : ∀ j, Image.Allocated { s with freeinode := s.freeinode + 1 } j →
      j ≠ s.freeinode → s.Allocated j := by
    intro j allocated other
    have below : j < s.freeinode + 1 := allocated.2
    exact ⟨allocated.1, by omega⟩
  constructor
  · exact inv.length
  · exact inv.low
  · exact inv.high
  · exact inv.zero
  · exact inv.super
  · exact room
  · intro j allocated
    by_cases here : j = s.freeinode
    · subst here
      rw [Ghost.node_set, Ghost.region_set, Ghost.count_set, Ghost.bytes_set]
      exact Stored.empty
    · simp only [Ghost.set, Function.update_of_ne here]
      exact inv.stored j (old j allocated here)
  · intro j allocated b member
    by_cases here : j = s.freeinode
    · subst here
      rw [Ghost.region_set] at member
      cases member
    · simp only [Ghost.set, Function.update_of_ne here] at member
      exact inv.inside j (old j allocated here) b member
  · intro j k b allocated allocated' member member'
    by_cases here : j = s.freeinode
    · subst here
      rw [Ghost.region_set] at member
      cases member
    · by_cases here' : k = s.freeinode
      · subst here'
        rw [Ghost.region_set] at member'
        cases member'
      · simp only [Ghost.set, Function.update_of_ne here] at member
        simp only [Ghost.set, Function.update_of_ne here'] at member'
        exact inv.apart j k b (old j allocated here) (old k allocated' here') member member'
  · intro j allocated
    by_cases here : j = s.freeinode
    · subst here
      rw [Ghost.node_set]
      exact kind
    · simp only [Ghost.set, Function.update_of_ne here]
      exact inv.type j (old j allocated here)
  · intro j allocated other
    simp only [Ghost.set, Function.update_of_ne other]
    exact inv.synced j (old j allocated other) (Nat.ne_of_gt allocated.1)

theorem ialloc_spec (inv : Inv s g 0) (positive : 1 ≤ s.freeinode)
    (room : s.freeinode < ninodeblocks * IPB) {type : UInt16}
    (kind : type = if s.freeinode = ROOTINO then T_DIR else T_FILE) :
    ∃ s' g', s.ialloc type = some (s.freeinode, s') ∧ Inv s' g' 0 ∧
      g'.bytes = Function.update g.bytes s.freeinode [] ∧
      s'.freeinode = s.freeinode + 1 ∧ s'.freeblock = s.freeblock := by
  have allocated : Image.Allocated { s with freeinode := s.freeinode + 1 } s.freeinode :=
    ⟨positive, Nat.lt_succ_self _⟩
  obtain ⟨s', written, inv', freeinode, freeblock⟩ :=
    (inv.allocate room kind).sync (d := { Dinode.fresh type with nlink := 1 }) allocated
      (by rw [Ghost.node_set]) (by rw [Ghost.node_set]) (by rw [Ghost.bytes_set]; rfl)
      (by rw [Ghost.count_set, Ghost.bytes_set]; rfl)
  refine ⟨s', _, ?_, inv', ?_, freeinode, freeblock⟩
  · rw [Image.ialloc, written]
    rfl
  · simp [Ghost.set]

theorem start_inv (g : Ghost) : Inv start g 0 := by
  have none : ∀ j, ¬ start.Allocated j := by
    intro j allocated
    have below : j < 1 := allocated.2
    exact absurd allocated.1 (by omega)
  constructor
  · rfl
  · exact le_refl _
  · decide
  · intro b free
    have later : nmeta ≤ b := free
    have low : 1 < nmeta := by decide
    show Function.update (fun _ => zeroBlock) 1 sbBlock b = zeroBlock
    rw [Function.update_of_ne (by omega)]
  · show Function.update (fun _ => zeroBlock) 1 sbBlock 1 = sbBlock
    rw [Function.update_self]
  · decide
  · intro j allocated
    exact absurd allocated (none j)
  · intro j allocated
    exact absurd allocated (none j)
  · intro j k b allocated
    exact absurd allocated (none j)
  · intro j allocated
    exact absurd allocated (none j)
  · intro j allocated
    exact absurd allocated (none j)

/-! ## The files one after the other -/

/-- What the file holds. -/
def Input.contents (input : Input) : List UInt8 := input.pieces.flatten

/-- The inode numbers and names of the root directory. -/
def links (inputs : List Input) : List (Nat × List UInt8) :=
  (ROOTINO, [46]) :: (ROOTINO, [46, 46]) ::
    (inputs.zipIdx 2).map fun entry => (entry.2, entry.1.name)

/-- The root directory. -/
def entries (inputs : List Input) : List UInt8 :=
  (links inputs).flatMap fun link => dirent link.1 link.2

/-- The files, and the root directory with them, fit the image. -/
structure Fitting (inputs : List Input) : Prop where
  root : (inputs.length + 2) * 16 ≤ MAXFILE * BSIZE
  each : ∀ input, input ∈ inputs → input.contents.length ≤ MAXFILE * BSIZE
  total : nmeta + cost (blocks ((inputs.length + 2) * 16)) +
    (inputs.map fun input => cost (blocks input.contents.length)).sum ≤ FSSIZE

/-- The image with some of the files. -/
structure Stage (inputs : List Input) (s : Image) (g : Ghost) : Prop where
  inv : Inv s g 0
  fitting : Fitting inputs
  freeinode : s.freeinode = inputs.length + 2
  root : g.bytes ROOTINO = entries inputs
  files : ∀ i input, inputs[i]? = some input → g.bytes (i + 2) = input.contents
  freeblock : s.freeblock = nmeta + cost (blocks ((inputs.length + 2) * 16)) +
    (inputs.map fun input => cost (blocks input.contents.length)).sum

theorem dirent_length (inum : Nat) (name : List UInt8) : (dirent inum name).length = 16 := by
  simp [dirent, DIRSIZ]

theorem links_length (inputs : List Input) : (links inputs).length = inputs.length + 2 := by
  simp [links]

theorem links_concat (inputs : List Input) (input : Input) :
    links (inputs ++ [input]) = links inputs ++ [(inputs.length + 2, input.name)] := by
  simp [links, List.zipIdx_append, Nat.add_comm]

theorem entries_length (inputs : List Input) :
    (entries inputs).length = (inputs.length + 2) * 16 := by
  have each : ∀ link : Nat × List UInt8, (dirent link.1 link.2).length = 16 :=
    fun link => dirent_length _ _
  simp only [entries, List.length_flatMap, each, List.map_const',
    List.sum_replicate_nat, links_length]

theorem entries_concat (inputs : List Input) (input : Input) :
    entries (inputs ++ [input]) = entries inputs ++ dirent (inputs.length + 2) input.name := by
  simp [entries, links_concat]

theorem Fitting.of_append {first second : List Input} (fitting : Fitting (first ++ second)) :
    Fitting first := by
  have root := fitting.root
  have total := fitting.total
  have less := cost_mono (blocks_mono
    (Nat.mul_le_mul_right 16 (Nat.le_add_right (first.length + 2) second.length)))
  have length : (first ++ second).length + 2 = first.length + 2 + second.length := by
    rw [List.length_append]
    omega
  rw [length] at root total
  rw [List.map_append, List.sum_append] at total
  constructor
  · omega
  · intro input member
    exact fitting.each input (List.mem_append_left _ member)
  · omega

/-- One more file fits if the longer directory and its contents do. -/
theorem Fitting.concat_iff {inputs : List Input} (fitting : Fitting inputs) (input : Input) :
    Fitting (inputs ++ [input]) ↔
      (inputs.length + 2) * 16 + 16 ≤ MAXFILE * BSIZE ∧
        input.contents.length ≤ MAXFILE * BSIZE ∧
        nmeta + cost (blocks ((inputs.length + 2) * 16 + 16)) +
          (inputs.map fun input => cost (blocks input.contents.length)).sum +
          cost (blocks input.contents.length) ≤ FSSIZE := by
  have length : ((inputs ++ [input]).length + 2) * 16 = (inputs.length + 2) * 16 + 16 := by
    rw [List.length_append, List.length_singleton]
    omega
  constructor
  · intro longer
    have root := longer.root
    have total := longer.total
    rw [length] at root total
    rw [List.map_append, List.sum_append, List.map_singleton, List.sum_singleton] at total
    exact ⟨root, longer.each input (by simp), by omega⟩
  · rintro ⟨root, last, total⟩
    constructor
    · rw [length]
      exact root
    · intro other member
      rcases List.mem_append.mp member with old | new
      · exact fitting.each other old
      · rw [List.mem_singleton.mp new]
        exact last
    · rw [length, List.map_append, List.sum_append, List.map_singleton, List.sum_singleton]
      omega

theorem Stage.allocated {inputs : List Input} (stage : Stage inputs s g) :
    s.Allocated ROOTINO := by
  rw [Image.Allocated, stage.freeinode]
  simp only [ROOTINO]
  omega

/-- One more file. -/
theorem addFile_spec {inputs : List Input} (stage : Stage inputs s g)
    (few : inputs.length + 2 < ninodeblocks * IPB) (input : Input) :
    (Fitting (inputs ++ [input]) → ∃ s' g', s.addFile ROOTINO input = some s' ∧
      Stage (inputs ++ [input]) s' g') ∧
    (¬ Fitting (inputs ++ [input]) → s.addFile ROOTINO input = none) := by
  have kind : T_FILE = if s.freeinode = ROOTINO then T_DIR else T_FILE := by
    rw [if_neg]
    rw [stage.freeinode]
    simp only [ROOTINO]
    omega
  obtain ⟨s₁, g₁, allocation, inv₁, bytes₁, freeinode₁, freeblock₁⟩ :=
    ialloc_spec stage.inv (by rw [stage.freeinode]; omega)
      (by rw [stage.freeinode]; exact few) kind
  rw [stage.freeinode] at bytes₁ freeinode₁ allocation
  have root₁ : s₁.Allocated ROOTINO := by
    rw [Image.Allocated, freeinode₁]
    simp only [ROOTINO]
    omega
  have other : ROOTINO ≠ inputs.length + 2 := by
    simp only [ROOTINO]
    omega
  have entry₁ := iappend_spec inv₁ root₁ (dirent (inputs.length + 2) input.name)
  have length₁ : (g₁.bytes ROOTINO).length = (inputs.length + 2) * 16 := by
    rw [bytes₁, Function.update_of_ne other, stage.root, entries_length]
  have before := cost_mono (blocks_mono (Nat.le_add_right ((inputs.length + 2) * 16) 16))
  have freeblock := stage.freeblock
  rw [Image.addFile, allocation, stage.fitting.concat_iff]
  simp only [Option.bind_eq_bind, Option.bind_some]
  rw [Fits, dirent_length, length₁, freeblock₁] at entry₁
  by_cases room : (inputs.length + 2) * 16 + 16 ≤ MAXFILE * BSIZE ∧
      s.freeblock + (cost (blocks ((inputs.length + 2) * 16 + 16)) -
        cost (blocks ((inputs.length + 2) * 16))) ≤ FSSIZE
  · obtain ⟨s₂, g₂, entered, first⟩ := entry₁.1 room
    have allocated₂ : s₂.Allocated (inputs.length + 2) := by
      rw [Image.Allocated, first.freeinode, freeinode₁]
      omega
    have bytes₂ : g₂.bytes (inputs.length + 2) = [] := by
      rw [first.bytes, Function.update_of_ne other.symm, bytes₁, Function.update_self]
    have freeblock₂ := first.freeblock
    rw [length₁, dirent_length, freeblock₁] at freeblock₂
    have copy := pieces_spec input.pieces first.inv allocated₂
    have none : cost (blocks 0) = 0 := by decide
    rw [Fits, bytes₂, List.length_nil, Nat.zero_add, none, Nat.sub_zero] at copy
    rw [entered, Option.bind_some]
    constructor
    · rintro ⟨root, last, total⟩
      obtain ⟨s', g', copied, second⟩ := copy.1 ⟨last, by
        rw [← Input.contents]
        omega⟩
      have freeblock' := second.freeblock
      rw [bytes₂, List.length_nil, Nat.zero_add, none, Nat.sub_zero, ← Input.contents]
        at freeblock'
      have length : ((inputs ++ [input]).length + 2) * 16 =
          (inputs.length + 2) * 16 + 16 := by
        rw [List.length_append, List.length_singleton]
        omega
      refine ⟨s', g', copied, ?_⟩
      constructor
      · exact second.inv
      · exact (stage.fitting.concat_iff input).mpr ⟨root, last, total⟩
      · rw [second.freeinode, first.freeinode, freeinode₁, List.length_append,
          List.length_singleton]
      · rw [second.bytes, Function.update_of_ne other, first.bytes, Function.update_self,
          bytes₁, Function.update_of_ne other, stage.root, entries_concat]
      · intro i file found
        by_cases here : i = inputs.length
        · subst here
          rw [List.getElem?_concat_length, Option.some.injEq] at found
          subst found
          rw [second.bytes, Function.update_self, bytes₂, List.nil_append, Input.contents]
        · have below : i < inputs.length := by
            have inside := (List.getElem?_eq_some_iff.mp found).1
            rw [List.length_append, List.length_singleton] at inside
            omega
          have distinct : i + 2 ≠ inputs.length + 2 := by omega
          have later : i + 2 ≠ ROOTINO := by
            simp only [ROOTINO]
            omega
          rw [List.getElem?_append_left below] at found
          rw [second.bytes, Function.update_of_ne distinct, first.bytes,
            Function.update_of_ne later, bytes₁, Function.update_of_ne distinct]
          exact stage.files i file found
      · rw [length, List.map_append, List.sum_append, List.map_singleton, List.sum_singleton,
          freeblock', freeblock₂]
        omega
    · intro full
      apply copy.2
      rintro ⟨last, total⟩
      apply full
      refine ⟨room.1, last, ?_⟩
      rw [← Input.contents] at total
      omega
  · constructor
    · rintro ⟨root, last, total⟩
      exact absurd ⟨root, by omega⟩ room
    · intro _
      rw [entry₁.2 room, Option.bind_none]

/-- All files, after those which are there. -/
theorem inputs_spec (rest : List Input) {inputs : List Input} (stage : Stage inputs s g)
    (few : inputs.length + rest.length + 1 < ninodeblocks * IPB) :
    (Fitting (inputs ++ rest) → ∃ s' g', rest.foldlM (Image.addFile ROOTINO) s = some s' ∧
      Stage (inputs ++ rest) s' g') ∧
    (¬ Fitting (inputs ++ rest) → rest.foldlM (Image.addFile ROOTINO) s = none) := by
  induction rest generalizing s g inputs with
  | nil =>
    rw [List.append_nil]
    constructor
    · intro _
      exact ⟨s, g, rfl, stage⟩
    · intro full
      exact absurd stage.fitting full
  | cons input rest ih =>
    rw [List.length_cons] at few
    have step := addFile_spec stage (by omega) input
    have whole : inputs ++ input :: rest = (inputs ++ [input]) ++ rest := by simp
    rw [whole, List.foldlM_cons]
    by_cases room : Fitting (inputs ++ [input])
    · obtain ⟨s₁, g₁, added, stage₁⟩ := step.1 room
      rw [added]
      apply ih stage₁
      rw [List.length_append, List.length_singleton]
      omega
    · constructor
      · intro fitting
        exact absurd fitting.of_append room
      · intro _
        rw [step.2 room]
        rfl

/-- The root directory with its own two entries. -/
theorem root_stage : ∃ s₀ s₁ s₂ g, start.ialloc T_DIR = some (ROOTINO, s₀) ∧
    s₀.iappend ROOTINO (dirent ROOTINO [46]) = some s₁ ∧
    s₁.iappend ROOTINO (dirent ROOTINO [46, 46]) = some s₂ ∧ Stage [] s₂ g := by
  obtain ⟨s₀, g₀, allocation, inv₀, bytes₀, freeinode₀, freeblock₀⟩ :=
    ialloc_spec (start_inv ⟨fun _ => Dinode.fresh 0, fun _ => [], fun _ => ∅, fun _ => 0⟩)
      (le_refl 1) (by decide)
      (rfl : T_DIR = if start.freeinode = ROOTINO then T_DIR else T_FILE)
  have allocated₀ : s₀.Allocated ROOTINO := by
    rw [Image.Allocated, freeinode₀]
    decide
  have empty₀ : g₀.bytes ROOTINO = [] := by
    rw [bytes₀]
    exact Function.update_self ..
  have fits₀ : Fits s₀ g₀ ROOTINO 16 := by
    rw [Fits, empty₀, freeblock₀]
    decide
  obtain ⟨s₁, g₁, entered₁, first⟩ :=
    (iappend_spec inv₀ allocated₀ (dirent ROOTINO [46])).1 fits₀
  have allocated₁ : s₁.Allocated ROOTINO := by
    rw [Image.Allocated, first.freeinode]
    exact allocated₀
  have fits₁ : Fits s₁ g₁ ROOTINO 16 := by
    rw [first.fits, Fits, empty₀, freeblock₀]
    decide
  obtain ⟨s₂, g₂, entered₂, second⟩ :=
    (iappend_spec first.inv allocated₁ (dirent ROOTINO [46, 46])).1 fits₁
  have freeblock := (first.trans second).freeblock
  refine ⟨s₀, s₁, s₂, g₂, allocation, entered₁, entered₂, ?_⟩
  constructor
  · exact second.inv
  · constructor
    · decide
    · intro input member
      cases member
    · decide
  · rw [second.freeinode, first.freeinode, freeinode₀]
    rfl
  · rw [second.bytes, Function.update_self, first.bytes, Function.update_self, empty₀]
    rfl
  · intro i input found
    cases found
  · rw [freeblock, empty₀, freeblock₀]
    rfl

/-- The image after the size of the root directory is fixed and the bitmap is written. -/
structure Built (inputs : List Input) (s : Image) (g : Ghost) : Prop where
  inv : Inv s g ROOTINO
  fitting : Fitting inputs
  freeinode : s.freeinode = inputs.length + 2
  root : g.bytes ROOTINO = entries inputs
  rootNode : s.dinode ROOTINO = { g.node ROOTINO with
    size := UInt32.ofNat (((inputs.length + 2) * 16 / BSIZE + 1) * BSIZE) }
  rootCount : g.count ROOTINO = blocks ((inputs.length + 2) * 16)
  files : ∀ i input, inputs[i]? = some input → g.bytes (i + 2) = input.contents
  bitmap : s.view sb.bmapstart = (List.range s.freeblock).foldl setBit zeroBlock

/-- Other meta blocks than the superblock and the inodes on disk do not matter. -/
theorem Inv.metadata (inv : Inv s g inum) {view : Nat → Block}
    (same : ∀ b, nmeta ≤ b ∨ b = 1 → view b = s.view b)
    (nodes : ∀ j, s.Allocated j → j ≠ inum →
      Dinode.read (view (sb.IBLOCK j)) (j % IPB) = s.dinode j) :
    Inv { s with view := view } g inum := by
  constructor
  · exact inv.length
  · exact inv.low
  · exact inv.high
  · intro b free
    exact (same b (Or.inl (inv.low.trans free))).trans (inv.zero b free)
  · exact (same 1 (Or.inr rfl)).trans inv.super
  · exact inv.few
  · intro j allocated
    apply (inv.stored j allocated).congr
    intro b member
    exact same b (Or.inl (inv.inside j allocated b member).1)
  · exact inv.inside
  · exact inv.apart
  · exact inv.type
  · intro j allocated away
    rw [← (inv.synced j allocated away).1]
    exact ⟨nodes j allocated away, (inv.synced j allocated away).1 ▸
      (inv.synced j allocated away).2⟩

theorem fixRoot_spec {inputs : List Input} (stage : Stage inputs s g) :
    ∃ s', s.fixRoot ROOTINO = some s' ∧ Inv s' g ROOTINO ∧
      s'.freeinode = s.freeinode ∧
      s'.dinode ROOTINO = { g.node ROOTINO with
        size := UInt32.ofNat (((inputs.length + 2) * 16 / BSIZE + 1) * BSIZE) } := by
  have allocated := stage.allocated
  have synced := stage.inv.synced ROOTINO allocated (by decide)
  have place := stage.inv.IBLOCK allocated
  rw [stage.root, entries_length] at synced
  rw [Image.fixRoot, stage.inv.rinode allocated, synced.1]
  simp only [Option.bind_eq_bind, Option.bind_some, synced.2.1]
  refine ⟨_, winode_eq (stage.inv.writes ROOTINO) allocated _, ?_, rfl, ?_⟩
  · apply (stage.inv.writes ROOTINO).metadata
    · intro b outside
      have later : 1 < sb.inodestart := by decide
      rw [Function.update_of_ne (by omega)]
    · intro j _ away
      rw [dinode_write, if_neg away, Image.dinode]
  · rw [Image.dinode, dinode_write, if_pos rfl]

theorem balloc_spec (inv : Inv s g inum) :
    s.balloc s.freeblock = some { s with
      view := Function.update s.view sb.bmapstart
        ((List.range s.freeblock).foldl setBit zeroBlock) } := by
  have high := inv.high
  have bits : FSSIZE < BSIZE * 8 := by decide
  rw [Image.balloc, if_pos (by omega), Image.wsect_eq inv.length (by decide)]

/-- The image is built exactly where the files fit. -/
theorem main_spec {inputs : List Input} (few : inputs.length + 1 < ninodeblocks * IPB) :
    (Fitting inputs → ∃ s g, main inputs = some s ∧ Built inputs s g) ∧
    (¬ Fitting inputs → main inputs = none) := by
  obtain ⟨s₀, s₁, s₂, g₂, allocation, entered₁, entered₂, stage₂⟩ := root_stage
  have files := inputs_spec inputs stage₂ (by rw [List.length_nil]; omega)
  rw [List.nil_append] at files
  simp only [main, allocation, entered₁, entered₂, Option.bind_eq_bind, Option.bind_some,
    ne_eq, not_true, if_false]
  constructor
  · intro fitting
    obtain ⟨s₃, g₃, added, stage⟩ := files.1 fitting
    obtain ⟨s₄, fixed, inv₄, freeinode₄, root₄⟩ := fixRoot_spec stage
    have allocated := stage.allocated
    have synced := stage.inv.synced ROOTINO allocated (by decide)
    rw [added, Option.bind_some, fixed, Option.bind_some, balloc_spec inv₄]
    refine ⟨_, g₃, rfl, ?_⟩
    have low : sb.bmapstart < nmeta := by decide
    have later : 1 < sb.bmapstart := by decide
    have nodes : ∀ j, s₄.Allocated j → Dinode.read (Function.update s₄.view sb.bmapstart
        ((List.range s₄.freeblock).foldl setBit zeroBlock) (sb.IBLOCK j)) (j % IPB) =
          s₄.dinode j := by
      intro j allocated
      have place := (inv₄.IBLOCK allocated).2.2
      rw [Function.update_of_ne (by omega), Image.dinode]
    constructor
    · apply inv₄.metadata
      · intro b outside
        rw [Function.update_of_ne (by omega)]
      · intro j allocated _
        exact nodes j allocated
    · exact fitting
    · exact freeinode₄.trans stage.freeinode
    · exact stage.root
    · rw [← root₄]
      apply nodes
      rw [Image.Allocated, freeinode₄]
      exact allocated
    · rw [synced.2.2, stage.root, entries_length]
    · exact stage.files
    · exact Function.update_self sb.bmapstart
        ((List.range s₄.freeblock).foldl setBit zeroBlock) s₄.view
  · intro full
    rw [files.2 full, Option.bind_none]

end PiKernel.Mkfs
