import PiKernel.Fs.Resolve
import PiKernel.Mkfs.Tidy
import Mathlib.Order.Interval.Finset.Nat

/-!
# The kernel reads what `mkfs` writes

The image is a consistent volume with one directory: the blocks behind the meta blocks and
before the first free one are exactly those of the inodes.  So `namei` finds the files by
their names, and `readi` returns the bytes that `iappend` has been called with.
-/

namespace PiKernel.Mkfs

open PiKernel.Bytes
open PiKernel.Conc
open PiKernel.Fs

variable {s : Image} {g : Ghost} {inputs : List Input} {inum b : Nat} {d : Dinode}

/-! ## All blocks have an owner -/

variable {view : Nat → Block} {region : Set Nat} {count : Nat} {bytes : List UInt8}

/-- The blocks that an inode refers to. -/
def refs (d : Dinode) (view : Nat → Block) : Finset Nat :=
  ((Finset.range (MAXFILE + 1)).filter fun k => d.ref view k ≠ 0).image (d.ref view)

theorem mem_refs (laid : Laid d view region count) : b ∈ refs d view ↔ b ∈ region := by
  rw [laid.maps.region]
  simp only [refs, Finset.mem_image, Finset.mem_filter, Finset.mem_range]
  constructor
  · rintro ⟨k, ⟨_, used⟩, rfl⟩
    exact ⟨used, k, rfl⟩
  · rintro ⟨used, k, rfl⟩
    refine ⟨k, ⟨?_, used⟩, rfl⟩
    by_contra outside
    exact used (Dinode.ref_eq_zero (by omega))

theorem card_refs (stored : Stored d view region count bytes) :
    (refs d view).card = cost count := by
  have laid := stored.laid
  have small := laid.small
  have last : d.ref view MAXFILE ≠ 0 ↔ NDIRECT < count := by
    rw [Dinode.ref_indirect]
    constructor
    · intro used
      by_contra few
      exact used (stored.direct (by omega))
    · exact laid.indirect_used
  have once : ((Finset.range (MAXFILE + 1)).filter fun k => d.ref view k ≠ 0).card =
      (refs d view).card := by
    rw [refs, Finset.card_image_of_injOn]
    intro k used l _ same
    exact laid.maps.once k l same (Finset.mem_filter.mp used).2
  rw [← once, Finset.range_add_one, Finset.filter_insert]
  have direct : (Finset.range MAXFILE).filter (fun k => d.ref view k ≠ 0) =
      Finset.range count := by
    ext k
    rw [Finset.mem_filter, Finset.mem_range, Finset.mem_range]
    constructor
    · rintro ⟨below, used⟩
      exact (laid.full k below).mp used
    · intro below
      exact ⟨below.trans_le small, laid.used below⟩
  rw [direct, cost]
  by_cases many : NDIRECT < count
  · rw [if_pos (last.mpr many), if_pos many, Finset.card_insert_of_notMem, Finset.card_range]
    rw [Finset.mem_range]
    omega
  · rw [if_neg (fun used => many (last.mp used)), if_neg many, Finset.card_range]
    rfl

theorem sum_files {α : Type} {f : Nat → Nat} {h : α → Nat} (list : List α)
    (each : ∀ i a, list[i]? = some a → f i = h a) :
    ∑ i ∈ Finset.range list.length, f i = (list.map h).sum := by
  induction list generalizing f with
  | nil => rfl
  | cons a list ih =>
      rw [List.length_cons, Finset.sum_range_succ', ih fun i a found => each (i + 1) a found,
        each 0 a rfl, List.map_cons, List.sum_cons, Nat.add_comm]

/-- The first free block, after all files. -/
theorem main_freeblock (few : inputs.length ≤ 198) (done : main inputs = some s) :
    s.freeblock = nmeta + cost (blocks ((inputs.length + 2) * 16)) +
      (inputs.map fun input => cost (blocks input.contents.length)).sum := by
  rcases root_stage with ⟨s₀, s₁, s₂, g₂, allocation, entered₁, entered₂, stage₂⟩
  have inodes : ninodeblocks * IPB = 208 := by decide
  have files := inputs_spec inputs stage₂ (by rw [List.length_nil]; omega)
  rw [List.nil_append] at files
  simp only [main, allocation, entered₁, entered₂, Option.bind_eq_bind, Option.bind_some,
    ne_eq, not_true, if_false] at done
  by_cases fitting : Fitting inputs
  · rcases files.1 fitting with ⟨s₃, g₃, added, stage⟩
    rw [added, Option.bind_some, Image.fixRoot, stage.inv.rinode stage.allocated] at done
    simp only [Option.bind_eq_bind, Option.bind_some,
      winode_eq (stage.inv.writes ROOTINO) stage.allocated, Image.balloc] at done
    split at done
    · cases done
      exact stage.freeblock
    · cases done
  · rw [files.2 fitting] at done
    cases done

namespace Built

/-- The number of blocks of an inode. -/
theorem count_file (built : Built inputs s g) {i : Nat} {input : Input}
    (found : inputs[i]? = some input) :
    s.Allocated (i + 2) ∧ g.count (i + 2) = blocks input.contents.length := by
  have below := (List.getElem?_eq_some_iff.mp found).1
  have allocated : s.Allocated (i + 2) := ⟨by omega, by rw [built.freeinode]; omega⟩
  have synced := built.inv.synced (i + 2) allocated (by rw [ROOTINO]; omega)
  rw [synced.2.2, built.files i input found]
  exact ⟨allocated, rfl⟩

/-- Every block between the meta blocks and the first free one is in use. -/
theorem covered (built : Built inputs s g)
    (freeblock : s.freeblock = nmeta + cost (blocks ((inputs.length + 2) * 16)) +
      (inputs.map fun input => cost (blocks input.contents.length)).sum)
    (low : nmeta ≤ b) (high : b < s.freeblock) :
    ∃ inum, s.Allocated inum ∧ b ∈ g.region inum := by
  have allocated : ∀ i, i < inputs.length + 1 → s.Allocated (i + 1) := by
    intro i below
    exact ⟨by omega, by rw [built.freeinode]; omega⟩
  have member : ∀ i x, i < inputs.length + 1 →
      (x ∈ refs (s.dinode (i + 1)) s.view ↔ x ∈ g.region (i + 1)) :=
    fun i x below => mem_refs (built.stored (allocated i below)).laid
  have disjoint : (Finset.range (inputs.length + 1) : Set Nat).PairwiseDisjoint
      fun i => refs (s.dinode (i + 1)) s.view := by
    intro i first j second other
    rw [Finset.mem_coe, Finset.mem_range] at first second
    rw [Function.onFun, Finset.disjoint_left]
    intro x here there
    have same := built.inv.apart (i + 1) (j + 1) x (allocated i first) (allocated j second)
      ((member i x first).mp here) ((member j x second).mp there)
    omega
  have total : ((Finset.range (inputs.length + 1)).biUnion fun i =>
      refs (s.dinode (i + 1)) s.view).card = s.freeblock - nmeta := by
    have each : ∀ i, i ∈ Finset.range (inputs.length + 1) →
        (refs (s.dinode (i + 1)) s.view).card = cost (g.count (i + 1)) := fun i inside =>
      card_refs (built.stored (allocated i (Finset.mem_range.mp inside)))
    rw [Finset.card_biUnion disjoint, Finset.sum_congr rfl each, Finset.sum_range_succ',
      sum_files inputs fun i input found => congrArg cost (built.count_file found).2, freeblock]
    have root : g.count (0 + 1) = blocks ((inputs.length + 2) * 16) := built.rootCount
    rw [root]
    omega
  have inside : ((Finset.range (inputs.length + 1)).biUnion fun i =>
      refs (s.dinode (i + 1)) s.view) ⊆ Finset.Ico nmeta s.freeblock := by
    intro x used
    rcases Finset.mem_biUnion.mp used with ⟨i, place, here⟩
    have below := Finset.mem_range.mp place
    exact Finset.mem_Ico.mpr
      (built.inv.inside (i + 1) (allocated i below) x ((member i x below).mp here))
  have all := Finset.eq_of_subset_of_card_le inside (by rw [total, Nat.card_Ico])
  have here : b ∈ Finset.Ico nmeta s.freeblock := Finset.mem_Ico.mpr ⟨low, high⟩
  rw [← all] at here
  rcases Finset.mem_biUnion.mp here with ⟨i, place, used⟩
  have below := Finset.mem_range.mp place
  exact ⟨i + 1, allocated i below, (member i b below).mp used⟩

end Built

/-! ## A consistent volume -/

theorem ordered : sb.Ordered where
  positive := by decide
  inodes inum inside := by
    simp only [Superblock.IBLOCK, sb, ninodeblocks, nlog, LOGSIZE, MAXOPBLOCKS, NINODES,
      IPB] at inside ⊢
    omega
  bitmap x inside := by
    simp only [Superblock.BBLOCK, Superblock.datastart, sb, nblocks, nmeta, ninodeblocks, nbitmap,
      nlog, LOGSIZE, MAXOPBLOCKS, NINODES, FSSIZE, IPB, BPB, BSIZE] at inside ⊢
    omega
  fits := by decide

namespace Built

variable (built : Built inputs s g) (few : inputs.length ≤ 198)

include built few

/-- The kernel takes the inodes for allocated that have been handed out. -/
theorem allocated_iff (tidy : Tidy s) :
    Fs.Allocated sb (Fs.dinode sb s.view) inum ↔ s.Allocated inum := by
  have inodes : ninodeblocks * IPB = 208 := by decide
  have number : sb.ninodes = 200 := rfl
  constructor
  · rintro ⟨inside, used⟩
    by_contra free
    exact used (tidy.free inum (by omega) free)
  · intro allocated
    have below := allocated.2
    rw [built.freeinode] at below
    refine ⟨by omega, ?_⟩
    change (s.dinode inum).type ≠ 0
    rw [(built.dinode allocated).2, built.inv.type inum allocated]
    split <;> decide

theorem counts_eq (rest : inputs.length % 32 ≠ 30) (allocated : s.Allocated inum) :
    counts sb s.view inum = g.count inum := by
  change blocks (s.dinode inum).size.toNat = _
  by_cases root : inum = ROOTINO
  · subst root
    rw [built.blocks_root, built.rootCount]
    simp only [blocks, BSIZE]
    omega
  · exact built.blocks_size allocated root

theorem consistent (rest : inputs.length % 32 ≠ 30) (done : main inputs = some s) :
    Consistent sb s.view where
  ordered := ordered
  owned := by
    have allocated_iff : ∀ inum, Fs.Allocated sb (Fs.dinode sb s.view) inum ↔ s.Allocated inum :=
      fun _ => built.allocated_iff few (main_tidy few done)
    have start : sb.datastart = nmeta := by decide
    have high := built.inv.high
    have size : sb.size = FSSIZE := rfl
    refine ⟨fun inum => {b | s.Allocated inum ∧ b ∈ g.region inum}, ?_, ?_, ?_, ?_, ?_, ?_, ?_⟩
    · intro inum live
      have allocated := (allocated_iff inum).mp live
      have region : {b | s.Allocated inum ∧ b ∈ g.region inum} = g.region inum := by
        ext b
        exact and_iff_right allocated
      rw [region, built.counts_eq few rest allocated]
      exact (built.stored allocated).laid
    · intro inum free
      ext b
      constructor
      · rintro ⟨allocated, _⟩
        exact free ((allocated_iff inum).mpr allocated)
      · intro absent
        cases absent
    · rintro i j b ⟨first, here⟩ ⟨second, there⟩
      exact (built.inv.apart i j b first second here there).symm
    · intro i b _ absent
      cases absent
    · rintro i b ⟨allocated, here⟩
      have bounds := built.inv.inside i allocated b here
      rw [start]
      omega
    · intro b absent
      cases absent
    · intro b inside
      rw [start]
      refine (built.marked inside).trans ⟨fun below => ?_, ?_⟩
      · by_cases low : nmeta ≤ b
        · exact Or.inr (Or.inr (built.covered (main_freeblock few done) low below))
        · exact Or.inl (Nat.lt_of_not_le low)
      · rintro (low | absent | ⟨i, allocated, here⟩)
        · exact low.trans_le built.inv.low
        · cases absent
        · exact (built.inv.inside i allocated b here).2

end Built

/-! ## Contents -/

/-- The contents are the bytes that are stored, and zeros up to the size. -/
theorem contents_stored (stored : Stored (s.dinode inum) s.view region count bytes)
    (within : (s.dinode inum).size.toNat ≤ count * BSIZE)
    (whole : bytes.length ≤ (s.dinode inum).size.toNat) :
    contents sb s.view inum =
      bytes ++ List.replicate ((s.dinode inum).size.toNat - bytes.length) 0 := by
  apply List.ext_getElem
  · rw [length_contents, List.length_append, List.length_replicate]
    change (s.dinode inum).size.toNat = _
    omega
  · intro k below _
    have inside : k < (s.dinode inum).size.toNat := by
      rw [length_contents] at below
      exact below
    have byte : (contents sb s.view inum)[k]? = some (bytes.getD k 0) := by
      rw [contents, Dinode.slice, List.getElem?_map, List.getElem?_range (by exact inside)]
      change some ((s.dinode inum).byte s.view (0 + k)) = _
      rw [Nat.zero_add, stored.content k (inside.trans_le within)]
    rw [List.getElem?_eq_getElem below] at byte
    rw [Option.some.inj byte, List.getElem_append]
    split
    · rename_i early
      exact (List.getElem_eq_getD 0).symm
    · rename_i late
      rw [List.getElem_replicate, List.getD_eq_default _ _ (Nat.le_of_not_lt late)]

namespace Built

theorem contents_file (built : Built inputs s g) {i : Nat} {input : Input}
    (found : inputs[i]? = some input) : contents sb s.view (i + 2) = input.contents := by
  have file := built.count_file found
  have stored := built.stored file.1
  have synced := built.inv.synced (i + 2) file.1 (by rw [ROOTINO]; omega)
  have size : (s.dinode (i + 2)).size.toNat = (g.bytes (i + 2)).length := by
    rw [synced.1, synced.2.1]
  have all := contents_stored stored (by rw [size]; exact stored.enough) size.ge
  rw [all, size, Nat.sub_self, List.replicate_zero, List.append_nil, built.files i input found]

theorem contents_root (built : Built inputs s g) (rest : inputs.length % 32 ≠ 30) :
    contents sb s.view ROOTINO = Mkfs.entries inputs ++
      List.replicate (((inputs.length + 2) * 16 / BSIZE + 1) * BSIZE -
        (inputs.length + 2) * 16) 0 := by
  have stored := built.stored built.allocated_root
  rw [built.root, built.rootCount] at stored
  have all := contents_stored stored
    (by
      rw [built.size]
      apply Nat.mul_le_mul_right
      simp only [blocks, BSIZE]
      omega)
    (by
      rw [built.size, entries_length]
      simp only [BSIZE]
      omega)
  rw [all, built.size, entries_length]

end Built

/-! ## The root directory -/

theorem takeWhile_zeros (list : List UInt8) (n : Nat) :
    (list ++ List.replicate n 0).takeWhile (· != 0) = list.takeWhile (· != 0) := by
  induction list with
  | nil =>
      cases n with
      | zero => rfl
      | succ n => simp [List.replicate_succ]
  | cons byte list ih =>
      rw [List.cons_append, List.takeWhile_cons, List.takeWhile_cons, ih]

/-- The entry that `mkfs` writes. -/
theorem slot_dirent (positive : 0 < inum) (fits : inum < 2 ^ 16) (name : List UInt8) :
    (Dirent.decode (dirent inum name)).slot = some (cut name, inum) := by
  have number : (UInt8.ofNat inum).toNat + 256 * (UInt8.ofNat (inum / 256)).toNat = inum := by
    simp only [UInt8.toNat_ofNat']
    omega
  have decoded : (Dirent.decode (dirent inum name)).inum = inum := number
  have named : (Dirent.decode (dirent inum name)).name =
      (name ++ List.replicate DIRSIZ 0).take DIRSIZ := rfl
  rw [Dirent.slot, decoded, if_neg positive.ne', named, cut, List.take_take, cut]
  have cuts : min Fs.DIRSIZ DIRSIZ = Fs.DIRSIZ := rfl
  rw [cuts, List.take_append, List.take_replicate, takeWhile_zeros]

/-- An entry of a directory that is filled up with zeros. -/
theorem slot_zeros (n : Nat) : (Dirent.decode (List.replicate n 0)).slot = none := by
  have zero : (Dirent.decode (List.replicate n 0)).inum = 0 := by
    cases n with
    | zero => rfl
    | succ n =>
        cases n with
        | zero => rfl
        | succ n => rfl
  rw [Dirent.slot, if_pos zero]

theorem entries_slot {k : Nat} {link : Nat × List UInt8} (found : (links inputs)[k]? = some link) :
    ((Mkfs.entries inputs).drop (k * 16)).take 16 = dirent link.1 link.2 := by
  have each : ∀ link : Nat × List UInt8, (dirent link.1 link.2).length = 16 :=
    fun link => dirent_length _ _
  apply List.ext_getElem?
  intro j
  by_cases inside : j < 16
  · rw [List.getElem?_take_of_lt inside, List.getElem?_drop, Nat.mul_comm, Mkfs.entries,
      getElem?_flatMap each inside, found, Option.bind_some]
  · rw [List.getElem?_eq_none (by rw [List.length_take]; omega),
      List.getElem?_eq_none (by rw [each]; omega)]

namespace Built

variable (built : Built inputs s g) (few : inputs.length ≤ 198)
  (rest : inputs.length % 32 ≠ 30)

include built few rest

/-- The slots of the root directory are its links, and free ones after them. -/
theorem slots_root (k : Nat) : (slotsOf sb s.view ROOTINO)[k]? =
    if k < ((inputs.length + 2) * 16 / BSIZE + 1) * 32 then
      some ((links inputs)[k]?.map fun link => (cut link.2, link.1))
    else none := by
  have length : (contents sb s.view ROOTINO).length / DIRENT =
      ((inputs.length + 2) * 16 / BSIZE + 1) * 32 := by
    rw [length_contents]
    change (s.dinode ROOTINO).size.toNat / 16 = _
    rw [built.size]
    simp only [BSIZE]
    omega
  rw [slotsOf]
  split
  · rename_i inside
    rw [getElem?_dirSlots (by rw [length]; exact inside), entryAt]
    change some (Dirent.decode (((contents sb s.view ROOTINO).drop (k * 16)).take 16)).slot = _
    rw [built.contents_root rest, List.drop_append, entries_length]
    cases found : (links inputs)[k]? with
    | some link =>
        have bounds := links_bounds found
        have early := (List.getElem?_eq_some_iff.mp found).1
        rw [links_length] at early
        rw [List.take_append_of_le_length (by
          rw [List.length_drop, entries_length]
          omega), entries_slot found, slot_dirent (by omega) (by omega)]
        rfl
    | none =>
        have late := List.getElem?_eq_none_iff.mp found
        rw [links_length] at late
        rw [List.drop_eq_nil_of_le (by rw [entries_length]; omega), List.nil_append,
          List.drop_replicate, List.take_replicate, slot_zeros]
        rfl
  · rename_i outside
    rw [List.getElem?_eq_none]
    rw [length_dirSlots, length]
    omega

theorem mem_slots {key : List UInt8} {n : Nat} : some (key, n) ∈ slotsOf sb s.view ROOTINO ↔
    ∃ link ∈ links inputs, cut link.2 = key ∧ link.1 = n := by
  rw [List.mem_iff_getElem?]
  constructor
  · rintro ⟨k, found⟩
    rw [built.slots_root few rest] at found
    split at found
    · rcases Option.map_eq_some_iff.mp (Option.some.inj found) with ⟨link, place, same⟩
      cases same
      exact ⟨link, List.mem_of_getElem? place, rfl, rfl⟩
    · cases found
  · rintro ⟨link, member, rfl, rfl⟩
    rcases List.mem_iff_getElem?.mp member with ⟨k, place⟩
    have early := (List.getElem?_eq_some_iff.mp place).1
    rw [links_length] at early
    refine ⟨k, ?_⟩
    rw [built.slots_root few rest, if_pos (by simp only [BSIZE]; omega), place]
    rfl

/-- With different names the root directory is a map from names to inodes. -/
theorem toMap_root (names : ((links inputs).map fun link => cut link.2).Nodup)
    {link : Nat × List UInt8} (member : link ∈ links inputs) :
    Slots.toMap (slotsOf sb s.view ROOTINO) (cut link.2) = some link.1 := by
  rw [Slots.toMap]
  cases found : Slots.find (cut link.2) (slotsOf sb s.view ROOTINO) with
  | none =>
      have absent := Slots.find_eq_none.mp found link.1
      exact absurd ((built.mem_slots few rest).mpr ⟨link, member, rfl, rfl⟩) absent
  | some entry =>
      rcases entry with ⟨k, n⟩
      have place := List.mem_of_getElem? (Slots.getElem?_of_find found)
      rcases (built.mem_slots few rest).mp place with ⟨other, member', same, rfl⟩
      rw [List.inj_on_of_nodup_map names member' member same]
      rfl

theorem toMap_absent {key : List UInt8} (absent : ∀ link ∈ links inputs, cut link.2 ≠ key) :
    Slots.toMap (slotsOf sb s.view ROOTINO) key = none := by
  rw [Slots.toMap, Slots.find_eq_none.mpr]
  · rfl
  · intro n member
    rcases (built.mem_slots few rest).mp member with ⟨link, place, same, _⟩
    exact absent link place same

/-- The image is a tree of one directory. -/
theorem tree (done : main inputs = some s) : Tree sb s.view := by
  have tidy := main_tidy few done
  have allocated_iff : ∀ inum, Fs.Allocated sb (Fs.dinode sb s.view) inum ↔ s.Allocated inum :=
    fun _ => built.allocated_iff few tidy
  have linkable : ∀ n, s.Allocated n → Linkable sb s.view n := by
    intro n allocated
    refine ⟨(allocated_iff n).mpr allocated, ?_⟩
    change (s.dinode n).nlink ≠ 0
    rw [tidy.links n allocated]
    decide
  have directory : ∀ n, Fs.Allocated sb (Fs.dinode sb s.view) n →
      (Fs.dinode sb s.view n).type = T_DIR → n = ROOTINO := by
    intro n live type
    by_contra other
    have allocated := (allocated_iff n).mp live
    change (s.dinode n).type = T_DIR at type
    rw [(built.dinode allocated).2, built.inv.type n allocated, if_neg other] at type
    exact absurd type (by decide)
  constructor
  · exact built.consistent few rest done
  · exact linkable ROOTINO built.allocated_root
  · intro n live type
    rw [directory n live type, length_contents]
    change DIRENT ∣ (s.dinode ROOTINO).size.toNat
    rw [built.size]
    exact Dvd.dvd.mul_left (by decide) _
  · intro n live type name m member
    rw [directory n live type] at member
    rcases (built.mem_slots few rest).mp member with ⟨link, place, _, rfl⟩
    rcases List.mem_iff_getElem?.mp place with ⟨k, found⟩
    have bounds := links_bounds found
    apply linkable
    rw [Image.Allocated, built.freeinode]
    exact bounds

end Built

/-! ## Paths -/

/-- A path of one component. -/
theorem components_root {name : List UInt8} (nonempty : name ≠ [])
    (plain : ∀ byte ∈ name, byte ≠ 0 ∧ byte ≠ slash) :
    components (slash :: name) = [cut name] := by
  cases name with
  | nil => exact absurd rfl nonempty
  | cons head tail =>
      have first := (plain head List.mem_cons_self).2
      have all : (head :: tail).takeWhile (· != slash) = head :: tail := by
        rw [List.takeWhile_eq_self_iff]
        intro byte member
        simpa using (plain byte member).2
      have none : (head :: tail).dropWhile (· != slash) = [] := by
        rw [List.dropWhile_eq_nil_iff]
        intro byte member
        simpa using (plain byte member).2
      have kept : cut (head :: tail) = (head :: tail).take Fs.DIRSIZ := by
        rw [cut, List.takeWhile_eq_self_iff]
        intro byte member
        simpa using (plain byte (List.mem_of_mem_take member)).1
      rw [components, words_cons_sep, words_cons first, all, none, words_nil, List.map_singleton,
        kept]

theorem mem_basename {path : List UInt8} {byte : UInt8} (member : byte ∈ basename path) :
    byte ∈ path ∧ byte ≠ slash := by
  rw [basename, List.mem_reverse] at member
  constructor
  · exact List.mem_reverse.mp ((List.takeWhile_prefix _).subset member)
  · simpa [slash] using List.mem_takeWhile_imp member

/-- The name of an input file is a string without slashes. -/
theorem name_plain {input : Input} (nul : ∀ byte ∈ input.path, byte ≠ 0) :
    ∀ byte ∈ input.name, byte ≠ 0 ∧ byte ≠ slash := by
  intro byte member
  have inside : byte ∈ basename input.path := by
    rw [Input.name] at member
    split at member
    · rename_i name whole
      rw [whole]
      exact List.mem_cons_of_mem _ member
    · exact member
  exact ⟨nul byte (mem_basename inside).1, (mem_basename inside).2⟩

theorem links_names : ((links inputs).map fun link => cut link.2) =
    [46] :: [46, 46] :: inputs.map fun input => cut input.name := by
  have first : ((inputs.zipIdx 2).map fun entry => cut entry.1.name) =
      inputs.map fun input => cut input.name := by
    have inputs_eq := List.zipIdx_map_fst 2 inputs
    conv_rhs => rw [← inputs_eq]
    rw [List.map_map]
    rfl
  rw [links, List.map_cons, List.map_cons, List.map_map, ← first]
  rfl

theorem link_file {i : Nat} {input : Input} (found : inputs[i]? = some input) :
    (i + 2, input.name) ∈ links inputs := by
  apply List.mem_cons_of_mem
  apply List.mem_cons_of_mem
  rw [List.mem_map]
  refine ⟨(input, i + 2), ?_, rfl⟩
  rw [List.mk_mem_zipIdx_iff_le_and_getElem?_sub, Nat.add_sub_cancel]
  exact ⟨Nat.le_add_left 2 i, found⟩

/-! ## The kernel -/

section Kernel

variable {Pid : Type} [DecidableEq Pid]
  {task : Tables Pid → Pid → Prog (Act Pid) Unit → Prop} {q : Pid} {t : Blocks Pid}
  {ip dir : Fin NINODE} {devsw : Devsw}

/-- The first `n` bytes of the file with a path. -/
def readPath (devsw : Devsw) (path : List UInt8) (n : Nat) :
    Prog (Act Pid) (Option (List UInt8)) := do
  match ← namei devsw path with
  | none => return none
  | some ip => do
      ilock ip
      let data ← readi devsw ip 0 n
      iunlockput ip
      return data

/-- A process works on an image, with no copies of inodes that differ from it. -/
structure Booted (image : Image) (q : Pid) (dir : Fin NINODE) (t : Blocks Pid) : Prop where
  view : t.view = image.view
  unlocked : ∀ i, t.lock i = none
  quiet : ∀ b, t.holder b = none
  copies : ∀ i, 0 < t.ref i → t.valid i = true → t.inode i = Fs.dinode sb t.view (t.inum i)
  cwd : t.cwd q = some dir
  used : 0 < t.ref dir
  live : Fs.Allocated sb (Fs.dinode sb t.view) (t.inum dir)
  room : 2 ≤ (Finset.univ.filter fun i => t.ref i = 0).card

/-- What is read is the first part of the contents of the inode that the path leads to. -/
theorem readPath_ends {path : List UInt8} {n : Nat} (settled : Settled sb t)
    (cwd : t.cwd q = some dir) (used : 0 < t.ref dir)
    (live : Fs.Allocated sb (Fs.dinode sb t.view) (t.inum dir))
    (nul : ∀ byte ∈ path, byte ≠ 0) (small : n < 2 ^ 64)
    (type : ∀ m, follow sb t.view (startOf t dir path) (components path) = some m →
      (Fs.dinode sb t.view m).type = T_FILE ∨ (Fs.dinode sb t.view m).type = T_DIR) :
    (blocksSystem sb task).Ends q (TooFewInodes t)
      (fun result final => result =
          (follow sb t.view (startOf t dir path) (components path)).map (fun m =>
            (contents sb t.view m).take n) ∧ Searched sb t final ∧ final.ref = t.ref)
      ((readPath devsw path n).expand (body sb)) t := by
  have ends : (blocksSystem sb task).Ends q (TooFewInodes t)
      (Resolved sb t (follow sb t.view (startOf t dir path) (components path)))
      ((namei devsw path).expand (body sb)) t := by
    apply bind_ends
    apply System.Ends.mono (namex_ends settled cwd used live nul) (fun _ few => few)
    rintro result final ⟨resolved, _⟩
    apply System.Ends.ret
    rwa [resolve_follow] at resolved
  apply bind_ends
  apply ends.mono (fun _ few => few)
  intro result middle resolved
  cases target : follow sb t.view (startOf t dir path) (components path) with
  | none =>
      rw [target] at resolved
      rcases resolved with ⟨rfl, searched, ref⟩
      exact System.Ends.ret ⟨rfl, searched, ref⟩
  | some m =>
      rw [target] at resolved
      rcases resolved with ⟨ip, rfl, holding⟩
      have locked : Locked sb (ilocked sb middle q ip) q ip :=
        { mine := Function.update_self ..
          valid := Function.update_self ..
          inside := holding.inum_self.symm ▸ holding.live.1
          copy := Function.update_self ..
          type := by
            rw [holding.inode_self]
            exact type m target
          quiet := holding.settled.quiet }
      have consistent : Consistent sb (ilocked sb middle q ip).view :=
        holding.settled.tree.consistent
      apply bind_ends
      apply holding.ilock_ends
      apply bind_ends
      apply readi_ends consistent locked
      apply bind_ends
      apply holding.iunlockput_ends
      intro final searched ref
      apply System.Ends.ret
      refine ⟨?_, searched, ref⟩
      refine (if_neg ?_).trans ?_
      · rw [not_or]
        exact ⟨Nat.not_lt_zero _, by omega⟩
      · change some (((contents sb middle.view (middle.inum ip)).drop 0).take n) = _
        rw [holding.view, holding.inum_self]
        rfl

/--
The kernel finds the files that `mkfs` has been given, with their contents, and no others; it
keeps no references, and no other call is disturbed.
-/
theorem mkfs_readPath (devsw : Devsw) {image : Image} (done : main inputs = some image)
    (few : inputs.length ≤ 198) (rest : inputs.length % 32 ≠ 30)
    (names : ([46] :: [46, 46] :: inputs.map fun input => cut input.name).Nodup)
    (nul : ∀ input ∈ inputs, ∀ byte ∈ input.path, byte ≠ 0)
    (booted : Booted image q dir t) {n : Nat} (small : n < 2 ^ 64) :
    Tree sb image.view ∧
    (∀ (i : Nat) (input : Input), inputs[i]? = some input → input.name ≠ [] →
      (Fs.dinode sb image.view (i + 2)).type = T_FILE ∧
      contents sb image.view (i + 2) = input.contents ∧
      (blocksSystem sb task).Ends q (fun _ => False)
        (fun result final => result = some (input.contents.take n) ∧
          Searched sb t final ∧ final.ref = t.ref)
        ((readPath devsw (slash :: input.name) n).expand (body sb)) t) ∧
    ∀ name : List UInt8, name ≠ [] → (∀ byte ∈ name, byte ≠ 0 ∧ byte ≠ slash) →
      cut name ∉ ([46] :: [46, 46] :: inputs.map fun input => cut input.name) →
      (blocksSystem sb task).Ends q (fun _ => False)
        (fun result final => result = none ∧ Searched sb t final ∧ final.ref = t.ref)
        ((readPath devsw (slash :: name) n).expand (body sb)) t := by
  have inodes : ninodeblocks * IPB = 208 := by decide
  have spec := @main_spec inputs (by omega)
  have fitting : Fitting inputs := by
    by_contra full
    rw [spec.2 full] at done
    cases done
  rcases spec.1 fitting with ⟨image', g, done', built⟩
  rw [done] at done'
  cases done'
  have tree := built.tree few rest done
  have settled : Settled sb t := ⟨booted.view ▸ tree, booted.unlocked, booted.quiet, booted.copies⟩
  have enough : ∀ message, TooFewInodes t message → False := fun _ short =>
    Nat.not_lt.mpr booted.room short.2
  rw [← links_names] at names
  have root : (Fs.dinode sb image.view ROOTINO).type = T_DIR := by
    change (image.dinode ROOTINO).type = T_DIR
    rw [(built.dinode built.allocated_root).2, built.inv.type ROOTINO built.allocated_root,
      if_pos rfl]
  have lookup : ∀ name : List UInt8, name ≠ [] → (∀ byte ∈ name, byte ≠ 0 ∧ byte ≠ slash) →
      follow sb t.view (startOf t dir (slash :: name)) (components (slash :: name)) =
        Slots.toMap (slotsOf sb image.view ROOTINO) (cut name) := by
    intro name nonempty plain
    have start : startOf t dir (slash :: name) = ROOTINO := rfl
    rw [components_root nonempty plain, start, booted.view, follow, List.foldlM_cons, child,
      if_pos root]
    cases Slots.toMap (slotsOf sb image.view ROOTINO) (cut name) <;> rfl
  have whole : ∀ name : List UInt8, (∀ byte ∈ name, byte ≠ 0 ∧ byte ≠ slash) →
      ∀ byte ∈ slash :: name, byte ≠ 0 := by
    intro name plain byte member
    rcases List.mem_cons.mp member with rfl | member
    · decide
    · exact (plain byte member).1
  refine ⟨tree, ?_, ?_⟩
  · intro i input found nonempty
    have file := built.count_file found
    have type : (Fs.dinode sb image.view (i + 2)).type = T_FILE := by
      change (image.dinode (i + 2)).type = T_FILE
      rw [(built.dinode file.1).2, built.inv.type (i + 2) file.1,
        if_neg (by rw [ROOTINO]; omega)]
    have same := built.contents_file found
    have plain := name_plain (nul input (List.mem_of_getElem? found))
    have target := lookup input.name nonempty plain
    rw [built.toMap_root few rest names (link_file found)] at target
    refine ⟨type, same, ?_⟩
    apply (readPath_ends settled booted.cwd booted.used booted.live (whole input.name plain) small
      ?_).mono enough
    · rintro result final ⟨read, searched, ref⟩
      rw [target, booted.view] at read
      refine ⟨read.trans ?_, searched, ref⟩
      rw [Option.map_some, same]
    · intro m reached
      rw [target] at reached
      cases reached
      rw [booted.view]
      exact Or.inl type
  · intro name nonempty plain absent
    have target := lookup name nonempty plain
    have unlinked : ∀ link ∈ links inputs, cut link.2 ≠ cut name := by
      intro link member same
      apply absent
      rw [← links_names, ← same]
      exact List.mem_map_of_mem member
    rw [built.toMap_absent few rest unlinked] at target
    apply (readPath_ends settled booted.cwd booted.used booted.live (whole name plain) small
      ?_).mono enough
    · rintro result final ⟨read, searched, ref⟩
      rw [target] at read
      exact ⟨read, searched, ref⟩
    · intro m reached
      rw [target] at reached
      cases reached

end Kernel

/-- The only process is in the root directory of an image, and nothing has been read. -/
def powerOn (image : Image) : Blocks Unit :=
  { atRoot 1 with
    view := image.view
    valid := fun _ => false }

theorem mkfs_readPath_oneFile : ∃ image final, main oneFile = some image ∧
    (blocksSystem sb fun _ _ _ => True).Completes ()
      ((readPath noDevices [47, 99, 97, 116] 2).expand (body sb)) (powerOn image)
      (some [1, 2]) final := by
  have fitting : Fitting oneFile := by
    constructor <;> decide
  have few : oneFile.length ≤ 198 := by decide
  have room : 2 ≤ (Finset.univ.filter fun i => (atRoot 1).ref i = 0).card := by decide
  rcases (main_spec (show oneFile.length + 1 < ninodeblocks * IPB by decide)).1 fitting with
    ⟨image, g, done, built⟩
  have booted : Booted image () firstEntry (powerOn image) :=
    { view := rfl
      unlocked := fun _ => rfl
      quiet := fun _ => rfl
      copies := fun i _ valid => by cases valid
      cwd := rfl
      used := Nat.one_pos
      live := (built.allocated_iff few (main_tidy few done)).mpr built.allocated_root
      room := room }
  have reads : _ ∧ (∀ _ _, _ → _ → _ ∧ _ ∧ System.Ends (blocksSystem sb fun _ _ _ => True)
      () _ _ _ _) ∧ _ :=
    mkfs_readPath noDevices done few (by decide) (by decide) (by simp [oneFile]) booted
      (by decide : 2 < 2 ^ 64)
  rcases (reads.2.1 0 _ rfl (by decide)).2.2.completes with ⟨_, final, completes, rfl, _⟩
  exact ⟨image, final, done, completes⟩

end PiKernel.Mkfs
