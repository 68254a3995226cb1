import PiKernel.Mkfs.Build

/-!
# Validity of the image

What the kernel assumes of the image holds if there are not too many files, and if the
root directory does not end at the end of a block: its size is then rounded up to a block
which it does not have.
-/

namespace PiKernel.Mkfs

open PiKernel.Bytes
open PiKernel.Fs

variable {s s' : Image} {g : Ghost} {inputs : List Input} {inum k b : Nat} {d : Dinode}

/-- The inode number of directory entry `k`. -/
def Image.entryInum (s : Image) (inum k : Nat) : Nat :=
  ((s.dinode inum).byte s.view (16 * k)).toNat +
    256 * ((s.dinode inum).byte s.view (16 * k + 1)).toNat

/-- What the kernel assumes of the image. -/
structure Valid (s : Image) : Prop where
  super : Superblock.read (s.view 1) = sb
  inodes : ∀ inum, s.Allocated inum → inum < sb.ninodes ∧
    sb.inodestart ≤ sb.IBLOCK inum ∧ sb.IBLOCK inum < sb.bmapstart
  data : ∀ inum k, s.Allocated inum → (s.dinode inum).ref s.view k ≠ 0 →
    sb.size - sb.nblocks ≤ (s.dinode inum).ref s.view k ∧
      (s.dinode inum).ref s.view k < sb.size ∧
      bit (s.view (sb.BBLOCK ((s.dinode inum).ref s.view k)))
        ((s.dinode inum).ref s.view k % BPB) = true
  once : ∀ inum inum' k k', s.Allocated inum → s.Allocated inum' →
    (s.dinode inum).ref s.view k ≠ 0 →
    (s.dinode inum).ref s.view k = (s.dinode inum').ref s.view k' → inum = inum' ∧ k = k'
  marked : ∀ b, b < sb.size → (bit (s.view (sb.BBLOCK b)) (b % BPB) = true ↔ b < s.freeblock)
  whole : ∀ inum k, s.Allocated inum → k < blocks (s.dinode inum).size.toNat →
    k < MAXFILE ∧ (s.dinode inum).ref s.view k ≠ 0
  names : ∀ inum k, s.Allocated inum → (s.dinode inum).type = T_DIR →
    16 * k < (s.dinode inum).size.toNat → s.entryInum inum k ≠ 0 →
    s.Allocated (s.entryInum inum k)

/-! ## Reading the root directory -/

/-- An element of blocks of equal length. -/
theorem getElem?_flatMap {α β : Type} {f : α → List β} {width j : Nat}
    (each : ∀ a, (f a).length = width) (inside : j < width) (list : List α) (k : Nat) :
    (list.flatMap f)[width * k + j]? = list[k]?.bind fun a => (f a)[j]? := by
  induction list generalizing k with
  | nil => rfl
  | cons a list ih =>
    rw [List.flatMap_cons]
    cases k with
    | zero =>
      rw [List.getElem?_append_left (by rw [each]; omega), Nat.mul_zero, Nat.zero_add]
      rfl
    | succ k =>
      have past : width * (k + 1) + j - width = width * k + j := by
        rw [Nat.mul_add]
        omega
      rw [List.getElem?_append_right (by rw [each, Nat.mul_add]; omega), each, past, ih,
        List.getElem?_cons_succ]

/-- Byte `j` of directory entry `k`. -/
theorem entries_getD {j : Nat} (inside : j < 16) (inputs : List Input) (k : Nat) :
    (entries inputs).getD (16 * k + j) 0 =
      match (links inputs)[k]? with
      | some link => (dirent link.1 link.2).getD j 0
      | none => 0 := by
  have each : ∀ link : Nat × List UInt8, (dirent link.1 link.2).length = 16 :=
    fun link => dirent_length _ _
  rw [List.getD_eq_getElem?_getD, entries, getElem?_flatMap each inside]
  cases (links inputs)[k]? with
  | none => rfl
  | some link => exact List.getD_eq_getElem?_getD.symm

/-- The inode numbers in the root directory have been handed out. -/
theorem links_bounds {link : Nat × List UInt8} (found : (links inputs)[k]? = some link) :
    1 ≤ link.1 ∧ link.1 < inputs.length + 2 := by
  have member := List.mem_of_getElem? found
  simp only [links, List.mem_cons, List.mem_map] at member
  rcases member with rfl | rfl | ⟨entry, place, rfl⟩
  · simp [ROOTINO]
  · simp [ROOTINO]
  · obtain ⟨input, inum⟩ := entry
    have bounds := List.mem_zipIdx place
    simp only
    omega

/-! ## The image that is built -/

namespace Built

theorem dinode (built : Built inputs s g) (allocated : s.Allocated inum) :
    (s.dinode inum).addrs = (g.node inum).addrs ∧
      (s.dinode inum).type = (g.node inum).type := by
  by_cases root : inum = ROOTINO
  · subst root
    rw [built.rootNode]
    exact ⟨rfl, rfl⟩
  · rw [(built.inv.synced inum allocated root).1]
    exact ⟨rfl, rfl⟩

/-- The inodes on disk have the contents they are meant to have. -/
theorem stored (built : Built inputs s g) (allocated : s.Allocated inum) :
    Stored (s.dinode inum) s.view (g.region inum) (g.count inum) (g.bytes inum) :=
  (built.inv.stored inum allocated).of_addrs (built.dinode allocated).1

theorem allocated_root (built : Built inputs s g) : s.Allocated ROOTINO := by
  rw [Image.Allocated, built.freeinode]
  simp only [ROOTINO]
  omega

/-- The size of the root directory, which is rounded up. -/
theorem size (built : Built inputs s g) :
    (s.dinode ROOTINO).size.toNat = ((inputs.length + 2) * 16 / BSIZE + 1) * BSIZE := by
  have root := built.fitting.root
  rw [built.rootNode]
  apply toNat_small
  simp only [MAXFILE, NDIRECT, NINDIRECT, BSIZE] at root ⊢
  omega

/-- The blocks up to the size of an inode. -/
theorem blocks_size (built : Built inputs s g) (allocated : s.Allocated inum)
    (away : inum ≠ ROOTINO) : blocks (s.dinode inum).size.toNat = g.count inum := by
  have synced := built.inv.synced inum allocated away
  rw [synced.1, synced.2.1, synced.2.2]

theorem blocks_root (built : Built inputs s g) :
    blocks (s.dinode ROOTINO).size.toNat = (inputs.length + 2) * 16 / BSIZE + 1 := by
  rw [built.size]
  simp only [blocks, BSIZE]
  omega

/-- The entry of a directory is that of its link. -/
theorem entryInum (built : Built inputs s g) (low : 16 * k + 1 < g.count ROOTINO * BSIZE)
    (few : inputs.length + 2 ≤ 2 ^ 16) :
    s.entryInum ROOTINO k = match (links inputs)[k]? with
      | some link => link.1
      | none => 0 := by
  have stored := built.stored built.allocated_root
  have first := entries_getD (j := 0) (by omega) inputs k
  have second := entries_getD (j := 1) (by omega) inputs k
  rw [Nat.add_zero] at first
  rw [Image.entryInum, stored.content _ (by omega), stored.content _ low, built.root, first,
    second]
  cases found : (links inputs)[k]? with
  | none => rfl
  | some link =>
    have bounds := links_bounds found
    simp only [dirent, List.cons_append, List.getD_cons_zero, List.getD_cons_succ,
      UInt8.toNat_ofNat']
    omega

/-- A reference is to a block of the inode. -/
theorem mem (built : Built inputs s g) (allocated : s.Allocated inum)
    (used : (s.dinode inum).ref s.view k ≠ 0) :
    (s.dinode inum).ref s.view k ∈ g.region inum :=
  (built.stored allocated).laid.maps.mem used

end Built

theorem bit_zeroBlock (b : Nat) : bit zeroBlock b = false := by
  simp [bit, readLE_zeroBlock]

/-- The bits below some number are set. -/
theorem bit_range {n : Nat} (fits : n ≤ BPB) (b : Nat) :
    bit ((List.range n).foldl setBit zeroBlock) b = decide (b < n) := by
  induction n with
  | zero => simp [bit_zeroBlock]
  | succ n ih =>
    rw [List.range_succ, List.foldl_append, List.foldl_cons, List.foldl_nil,
      bit_setBit (by omega), ih (by omega), Bool.eq_iff_iff, Bool.or_eq_true, decide_eq_true_eq,
      decide_eq_true_eq, decide_eq_true_eq]
    omega

/-- The superblock reads back. -/
theorem read_sbBlock : Superblock.read sbBlock = sb := by
  simp only [Superblock.read, sb, Superblock.mk.injEq]
  decide +kernel

namespace Built

theorem marked (built : Built inputs s g) (inside : b < sb.size) :
    bit (s.view (sb.BBLOCK b)) (b % BPB) = true ↔ b < s.freeblock := by
  have high := built.inv.high
  have size : sb.size = FSSIZE := rfl
  have small : FSSIZE < BPB := by decide
  have block : sb.BBLOCK b = sb.bmapstart := by
    rw [Superblock.BBLOCK, Nat.div_eq_of_lt (by omega), Nat.zero_add]
  rw [block, built.bitmap, Nat.mod_eq_of_lt (by omega), bit_range (by omega),
    decide_eq_true_eq]

/-- With few files the image is valid if the root directory has all its blocks. -/
theorem valid (built : Built inputs s g) (few : inputs.length ≤ 198)
    (rest : inputs.length % 32 ≠ 30) : Valid s := by
  have freeinode := built.freeinode
  have rooted : g.count ROOTINO = (inputs.length + 2) * 16 / BSIZE + 1 := by
    rw [built.rootCount]
    simp only [blocks, BSIZE]
    omega
  constructor
  · rw [built.inv.super, read_sbBlock]
  · intro inum allocated
    have below := allocated.2
    have number : sb.ninodes = 200 := rfl
    exact ⟨by omega, (built.inv.IBLOCK allocated).2⟩
  · intro inum k allocated used
    have bounds := built.inv.inside inum allocated _ (built.mem allocated used)
    have high := built.inv.high
    have size : sb.size = FSSIZE := rfl
    have inside : (s.dinode inum).ref s.view k < sb.size := by omega
    exact ⟨bounds.1, inside, (built.marked inside).mpr bounds.2⟩
  · intro inum inum' k k' allocated allocated' used same
    have here : inum' = inum := built.inv.apart inum inum' _ allocated allocated'
      (built.mem allocated used) (same ▸ built.mem allocated' (same ▸ used))
    subst here
    exact ⟨rfl, (built.stored allocated).laid.maps.once k k' same used⟩
  · intro b inside
    exact built.marked inside
  · intro inum k allocated below
    have laid := (built.stored allocated).laid
    have inside : k < g.count inum := by
      by_cases root : inum = ROOTINO
      · subst root
        rwa [built.blocks_root, ← rooted] at below
      · rwa [built.blocks_size allocated root] at below
    exact ⟨lt_of_lt_of_le inside laid.small, laid.used inside⟩
  · intro inum k allocated directory below named
    have root : inum = ROOTINO := by
      by_contra away
      rw [(built.dinode allocated).2, built.inv.type inum allocated, if_neg away] at directory
      exact absurd directory (by decide)
    subst root
    rw [built.size, ← rooted] at below
    have last : 16 * k + 1 < g.count ROOTINO * BSIZE := by
      simp only [BSIZE] at below ⊢
      omega
    rw [built.entryInum last (by omega)] at named ⊢
    cases found : (links inputs)[k]? with
    | none =>
      rw [found] at named
      exact absurd rfl named
    | some link =>
      have bounds := links_bounds found
      rw [Image.Allocated, freeinode]
      exact bounds

/-- A root directory that ends with a block gets a size beyond it. -/
theorem not_whole (built : Built inputs s g) (rest : inputs.length % 32 = 30) : ¬ Valid s := by
  intro valid
  have whole : g.count ROOTINO = (inputs.length + 2) * 16 / BSIZE := by
    rw [built.rootCount]
    simp only [blocks, BSIZE]
    omega
  have laid := (built.stored built.allocated_root).laid
  have missing := valid.whole ROOTINO (g.count ROOTINO) built.allocated_root (by
    rw [built.blocks_root, whole]
    omega)
  exact missing.2 (laid.vacant missing.1)

end Built

/-! ## The inode number -/

namespace Image

/-- Only `ialloc` hands out inodes. -/
theorem winode_freeinode (written : s.winode inum d = some s') :
    s'.freeinode = s.freeinode := by
  rw [winode, Option.bind_eq_bind, Option.bind_eq_some_iff] at written
  obtain ⟨buf, _, done⟩ := written
  rw [← Option.some.inj done]
  rfl

theorem addr_freeinode (s : Image) (d : Dinode) (n : Nat) :
    (s.addr d n).2.freeinode = s.freeinode := by
  rw [addr]
  split <;> rfl

theorem indirect_freeinode {a n x : Nat} (found : s.indirect a n = some (x, s')) :
    s'.freeinode = s.freeinode := by
  rw [indirect, Option.bind_eq_bind, Option.bind_eq_some_iff] at found
  obtain ⟨block, _, done⟩ := found
  split at done
  · rw [← (Prod.mk.inj (Option.some.inj done)).2]
    rfl
  · rw [← (Prod.mk.inj (Option.some.inj done)).2]

theorem blockFor_freeinode {fbn x : Nat} {e : Dinode}
    (found : s.blockFor d fbn = some (x, e, s')) : s'.freeinode = s.freeinode := by
  rw [blockFor] at found
  split at found
  · have same := (Prod.mk.inj (Prod.mk.inj (Option.some.inj found)).2).2
    rw [← same]
    exact addr_freeinode s d fbn
  · simp only [Option.bind_eq_bind, Option.bind_eq_some_iff] at found
    obtain ⟨⟨x', s₁⟩, entry, done⟩ := found
    have same := (Prod.mk.inj (Prod.mk.inj (Option.some.inj done)).2).2
    rw [← same, indirect_freeinode entry, addr_freeinode]

theorem iappendLoop_freeinode {fuel : Nat} {off off' : Nat} {e : Dinode} {p : List UInt8}
    (done : iappendLoop fuel s d off p = some (off', e, s')) : s'.freeinode = s.freeinode := by
  induction fuel generalizing s d off p with
  | zero => rw [← (Prod.mk.inj (Prod.mk.inj (Option.some.inj done)).2).2]
  | succ fuel ih =>
    rw [iappendLoop] at done
    split at done
    · rw [← (Prod.mk.inj (Prod.mk.inj (Option.some.inj done)).2).2]
    · dsimp only at done
      split at done
      · simp only [Option.bind_eq_bind, Option.bind_eq_some_iff] at done
        obtain ⟨⟨x, e', s₁⟩, found, buf, _, rest⟩ := done
        rw [ih rest, ← blockFor_freeinode found]
        rfl
      · cases done

theorem iappend_freeinode {p : List UInt8} (done : s.iappend inum p = some s') :
    s'.freeinode = s.freeinode := by
  rw [iappend] at done
  simp only [Option.bind_eq_bind, Option.bind_eq_some_iff] at done
  obtain ⟨din, _, ⟨off, e, s₁⟩, loop, written⟩ := done
  rw [winode_freeinode written, iappendLoop_freeinode loop]

theorem ialloc_freeinode {type : UInt16} (done : s.ialloc type = some (inum, s')) :
    s'.freeinode = s.freeinode + 1 := by
  rw [ialloc, Option.bind_eq_bind, Option.bind_eq_some_iff] at done
  obtain ⟨s₁, written, done⟩ := done
  rw [← (Prod.mk.inj (Option.some.inj done)).2, winode_freeinode written]

theorem pieces_freeinode {pieces : List (List UInt8)}
    (done : pieces.foldlM (fun s piece => s.iappend inum piece) s = some s') :
    s'.freeinode = s.freeinode := by
  induction pieces generalizing s with
  | nil => rw [Option.some.inj done]
  | cons piece pieces ih =>
    rw [List.foldlM_cons, Option.bind_eq_bind, Option.bind_eq_some_iff] at done
    obtain ⟨s₁, first, rest⟩ := done
    rw [ih rest, iappend_freeinode first]

theorem addFile_freeinode {input : Input} (done : s.addFile inum input = some s') :
    s'.freeinode = s.freeinode + 1 := by
  rw [addFile] at done
  simp only [Option.bind_eq_bind, Option.bind_eq_some_iff] at done
  obtain ⟨⟨new, s₁⟩, allocation, s₂, entered, copied⟩ := done
  rw [pieces_freeinode copied, iappend_freeinode entered, ialloc_freeinode allocation]

theorem inputs_freeinode (done : inputs.foldlM (addFile inum) s = some s') :
    s'.freeinode = s.freeinode + inputs.length := by
  induction inputs generalizing s with
  | nil =>
    rw [Option.some.inj done]
    rfl
  | cons input inputs ih =>
    rw [List.foldlM_cons, Option.bind_eq_bind, Option.bind_eq_some_iff] at done
    obtain ⟨s₁, first, rest⟩ := done
    rw [ih rest, addFile_freeinode first, List.length_cons]
    omega

end Image

theorem main_freeinode (done : main inputs = some s) : s.freeinode = inputs.length + 2 := by
  rw [main] at done
  simp only [Option.bind_eq_bind, Option.bind_eq_some_iff] at done
  obtain ⟨⟨rootino, s₀⟩, allocation, done⟩ := done
  split at done
  · cases done
  · simp only [Option.bind_eq_some_iff] at done
    obtain ⟨s₁, first, s₂, second, s₃, added, s₄, fixed, written⟩ := done
    rw [Image.balloc] at written
    split at written
    · rw [Image.fixRoot] at fixed
      simp only [Option.bind_eq_bind, Option.bind_eq_some_iff] at fixed
      obtain ⟨din, _, fixed⟩ := fixed
      rw [← Option.some.inj written]
      show s₄.freeinode = _
      rw [Image.winode_freeinode fixed, Image.inputs_freeinode added,
        Image.iappend_freeinode second, Image.iappend_freeinode first,
        Image.ialloc_freeinode allocation]
      show 1 + 1 + _ = _
      omega
    · cases written

/-! ## Which images are valid -/

/-- The name in the directory entry, without the zeros. -/
def Input.stored (input : Input) : List UInt8 := input.name.take DIRSIZ

/--
The image is valid if there are inodes enough for the files, and if the entries of the
root directory, two more than files, do not fill up its last block.
-/
theorem main_valid_iff (done : main inputs = some s) :
    Valid s ↔ inputs.length ≤ 198 ∧ inputs.length % 32 ≠ 30 := by
  have freeinode := main_freeinode done
  have built : inputs.length ≤ 198 → ∃ g, Built inputs s g := by
    intro few
    have enough : inputs.length + 1 < ninodeblocks * IPB :=
      lt_of_le_of_lt (Nat.succ_le_succ few) (by decide)
    have spec := main_spec enough
    by_cases fitting : Fitting inputs
    · obtain ⟨s', g, done', built⟩ := spec.1 fitting
      rw [done, Option.some.injEq] at done'
      exact ⟨g, done' ▸ built⟩
    · rw [spec.2 fitting] at done
      cases done
  constructor
  · intro valid
    have last := (valid.inodes (inputs.length + 1) ⟨Nat.succ_pos _, by omega⟩).1
    have number : sb.ninodes = 200 := rfl
    have few : inputs.length ≤ 198 := by omega
    obtain ⟨g, image⟩ := built few
    exact ⟨few, fun rest => image.not_whole rest valid⟩
  · rintro ⟨few, rest⟩
    obtain ⟨g, image⟩ := built few
    exact image.valid few rest

/-- A file which is called "cat". -/
def oneFile : List Input := [⟨[117, 47, 95, 99, 97, 116], [[1, 2, 3]]⟩]

theorem main_valid_iff_oneFile : ∃ s, main oneFile = some s ∧
    (Valid s ↔ oneFile.length ≤ 198 ∧ oneFile.length % 32 ≠ 30) := by
  have fitting : Fitting oneFile := by
    constructor <;> decide
  obtain ⟨s, g, done, built⟩ :=
    (main_spec (show oneFile.length + 1 < ninodeblocks * IPB by decide)).1 fitting
  exact ⟨s, done, main_valid_iff done⟩

/-- Thirty empty files with different names. -/
def thirtyFiles : List Input := (List.range 30).map fun i => ⟨[UInt8.ofNat (97 + i)], []⟩

/-- With thirty files the root directory has entries past its only block. -/
theorem not_main_valid : ¬ ∀ inputs s, (inputs.map Input.stored).Nodup →
    main inputs = some s → Valid s := by
  intro always
  have fitting : Fitting thirtyFiles := by
    constructor <;> decide
  obtain ⟨s, g, done, built⟩ :=
    (main_spec (show thirtyFiles.length + 1 < ninodeblocks * IPB by decide)).1 fitting
  exact built.not_whole (by decide) (always thirtyFiles s (by decide +kernel) done)

end PiKernel.Mkfs
