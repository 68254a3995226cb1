import PiKernel.Mkfs.Valid

/-!
# The inodes that `mkfs` does not hand out

`iappend` writes to blocks behind the meta blocks and to the inode it is called for.  So
the other inodes on disk stay as they are, which are free as long as `ialloc` has not
handed them out, and have one link after that.
-/

namespace PiKernel.Mkfs

open PiKernel.Bytes
open PiKernel.Fs

variable {s s' : Image} {g : Ghost} {inum b k x : Nat} {d e : Dinode} {p : List UInt8}
  {inputs : List Input}

/-- Inodes are free before they are handed out, and have one link after that. -/
structure Tidy (s : Image) : Prop where
  free : ∀ j, j < ninodeblocks * IPB → ¬ s.Allocated j → (s.dinode j).type = 0
  links : ∀ j, s.Allocated j → (s.dinode j).nlink = 1

/-! ## What `iappend` writes to -/

theorem addr_view {d e : Dinode} {n : Nat} (found : s.addr d n = (e, s')) :
    s'.view = s.view := by
  rw [Image.addr] at found
  split at found
  · cases found
    rfl
  · cases found
    rfl

/-- Only the indirect block changes. -/
theorem blockFor_view (found : s.blockFor d k = some (x, e, s')) (low : b < nmeta)
    (place : NDIRECT ≤ k → nmeta ≤ e.addr NDIRECT ∧ e.addr NDIRECT < FSSIZE) :
    s'.view b = s.view b := by
  rw [Image.blockFor] at found
  by_cases direct : k < NDIRECT
  · rw [if_pos direct] at found
    cases result : s.addr d k with
    | mk e₁ s₁ =>
        rw [result] at found
        cases found
        rw [addr_view result]
  · rw [if_neg direct] at found
    cases result : s.addr d NDIRECT with
    | mk e₁ s₁ =>
        simp only [result, Option.bind_eq_bind, Option.bind_eq_some_iff] at found
        rcases found with ⟨⟨y, s₂⟩, entered, finished⟩
        cases finished
        have bounds := place (Nat.le_of_not_lt direct)
        have small := FSSIZE_small
        rw [Image.indirect] at entered
        simp only [Option.bind_eq_bind, Option.bind_eq_some_iff] at entered
        rcases entered with ⟨data, _, entered⟩
        rw [← addr_view result]
        split at entered
        · cases entered
          change Function.update s₁.view (Image.sector (e.addr NDIRECT)) _ b = _
          rw [sector_eq (by omega), Function.update_of_ne (by omega)]
        · cases entered
          rfl

/-- The blocks of the inode that is written are behind the meta blocks. -/
theorem Inv.place (inv : Inv s g inum) (allocated : s.Allocated inum)
    (below : k < g.count inum) :
    (nmeta ≤ (g.node inum).ref s.view k ∧ (g.node inum).ref s.view k < FSSIZE) ∧
      (NDIRECT ≤ k → nmeta ≤ (g.node inum).addr NDIRECT ∧
        (g.node inum).addr NDIRECT < FSSIZE) := by
  have laid := (inv.stored inum allocated).laid
  have within : ∀ b, b ∈ g.region inum → nmeta ≤ b ∧ b < FSSIZE := by
    intro b member
    have bounds := inv.inside inum allocated b member
    exact ⟨bounds.1, bounds.2.trans_le inv.high⟩
  constructor
  · exact within _ (laid.mem below)
  · intro far
    exact within _ (laid.indirect (laid.indirect_used (far.trans_lt below)))

/-- One round of the loop leaves the meta blocks as they are. -/
theorem iappend_round_meta {off : Nat} (inv : Inv s g inum) (allocated : s.Allocated inum)
    (tight : g.count inum = blocks (g.bytes inum).length) (more : p.length ≠ 0)
    (inside : (g.bytes inum).length / BSIZE < MAXFILE)
    (room : s.freeblock +
      (cost ((g.bytes inum).length / BSIZE + 1) - cost (g.count inum)) ≤ FSSIZE)
    (once : Image.iappendLoop 1 s (g.node inum) (g.bytes inum).length p = some (off, d, s'))
    (low : b < nmeta) : s'.view b = s.view b := by
  rcases blockFor_next inv allocated tight inside room with ⟨x, e, s₁, region, found, placed⟩
  have allocated₁ : s₁.Allocated inum := by
    rw [Image.Allocated, placed.freeinode]
    exact allocated
  have place := placed.inv.place allocated₁ (k := (g.bytes inum).length / BSIZE) (by
    rw [Ghost.count_set]
    exact Nat.lt_succ_self _)
  rw [Ghost.node_set, placed.ref] at place
  have small := FSSIZE_small
  have read : s₁.rsect x = some (s₁.view x) := by
    rw [placed.inv.rsect (by omega), if_pos place.1.2]
  rw [Image.iappendLoop, if_neg more, if_pos inside, found] at once
  simp only [Option.bind_eq_bind, Option.bind_some, read, Image.iappendLoop] at once
  cases once
  change Function.update s₁.view (Image.sector x) _ b = _
  rw [sector_eq (by omega), Function.update_of_ne (by omega)]
  exact blockFor_view found low place.2

/-- The meta blocks stay as they are. -/
theorem iappendLoop_meta {fuel : Nat} {result : Nat × Dinode × Image}
    (inv : Inv s g inum) (allocated : s.Allocated inum)
    (tight : g.count inum = blocks (g.bytes inum).length)
    (done : Image.iappendLoop fuel s (g.node inum) (g.bytes inum).length p = some result)
    (low : b < nmeta) : result.2.2.view b = s.view b := by
  induction fuel generalizing s g p with
  | zero =>
      cases done
      rfl
  | succ fuel ih =>
      by_cases empty : p.length = 0
      · rw [iappendLoop_nil empty] at done
        cases done
        rfl
      by_cases room : Fits s g inum 1
      · have last : blocks ((g.bytes inum).length + 1) = (g.bytes inum).length / BSIZE + 1 :=
          blocks_chunk (Nat.succ_pos _) (Nat.mod_lt _ (by decide))
        have inside : (g.bytes inum).length / BSIZE < MAXFILE :=
          (Nat.div_lt_iff_lt_mul (by decide)).mpr room.1
        have space : s.freeblock +
            (cost ((g.bytes inum).length / BSIZE + 1) - cost (g.count inum)) ≤ FSSIZE := by
          rw [← last, tight]
          exact room.2
        rcases iappend_round inv allocated tight empty inside space with
          ⟨d, s₁, region, next, first⟩
        have once : s₁.view b = s.view b :=
          iappend_round_meta inv allocated tight empty inside space (next 0) low
        have allocated₁ : s₁.Allocated inum := by
          rw [Image.Allocated, first.freeinode]
          exact allocated
        have front : (p.take (piece (g.bytes inum).length p)).length =
            piece (g.bytes inum).length p := by
          rw [List.length_take, Nat.min_eq_left (piece_le _ _)]
        have rest := ih (p := p.drop (piece (g.bytes inum).length p)) first.inv allocated₁
          (by rw [Ghost.count_set, Ghost.bytes_set, List.length_append])
        simp only [Ghost.node_set, Ghost.bytes_set, List.length_append, front] at rest
        rw [next] at done
        exact (rest done).trans once
      · rw [iappend_full inv allocated tight empty room fuel] at done
        cases done

/-! ## Inodes on disk -/

theorem IBLOCK_low {j : Nat} (inside : j < ninodeblocks * IPB) :
    sb.IBLOCK j < nmeta ∧ sb.IBLOCK j ≠ sb.bmapstart ∧ sb.IBLOCK j ≠ 1 := by
  simp only [Superblock.IBLOCK, sb, nmeta, ninodeblocks, nbitmap, nlog, LOGSIZE, MAXOPBLOCKS,
    NINODES, IPB, FSSIZE, BSIZE] at inside ⊢
  omega

/-- An inode is written which has one link. -/
theorem Tidy.write (tidy : Tidy s) (few : s'.freeinode ≤ ninodeblocks * IPB)
    (same : ∀ b, b < nmeta → s'.view b = s.view b)
    (more : ∀ j, s'.Allocated j ↔ s.Allocated j ∨ j = inum) (link : d.nlink = 1) :
    Tidy { s' with
      view := Function.update s'.view (sb.IBLOCK inum)
        (Dinode.write (s'.view (sb.IBLOCK inum)) (inum % IPB) d) } := by
  have kept : ∀ j, j < ninodeblocks * IPB →
      Dinode.read (s'.view (sb.IBLOCK j)) (j % IPB) = s.dinode j := by
    intro j inside
    rw [same _ (IBLOCK_low inside).1, Image.dinode]
  constructor
  · intro j inside free
    have before : ¬ (s.Allocated j ∨ j = inum) := fun used => free ((more j).mpr used)
    rw [not_or] at before
    rw [Image.dinode, dinode_write, if_neg before.2, kept j inside]
    exact tidy.free j inside before.1
  · intro j allocated
    have inside : j < ninodeblocks * IPB := lt_of_lt_of_le allocated.2 few
    rw [Image.dinode, dinode_write]
    split
    · exact link
    · rename_i other
      rcases (more j).mp allocated with before | here
      · rw [kept j inside]
        exact tidy.links j before
      · exact absurd here other

theorem Tidy.iappend (tidy : Tidy s) (inv : Inv s g 0) (allocated : s.Allocated inum)
    (done : s.iappend inum p = some s') : Tidy s' := by
  have synced := inv.synced inum allocated (Nat.ne_of_gt allocated.1)
  have loop := iappendLoop_spec (le_refl p.length) (inv.writes inum) allocated synced.2.2
  have link := tidy.links inum allocated
  rw [Image.iappend, inv.rinode allocated, synced.1] at done
  rw [synced.1] at link
  simp only [Option.bind_eq_bind, Option.bind_some, synced.2.1] at done
  by_cases fits : Mkfs.Fits s g inum p.length
  · rcases loop.1 fits with ⟨e, s₁, region, ran, appended⟩
    have allocated₁ : s₁.Allocated inum := by
      rw [Image.Allocated, appended.freeinode]
      exact allocated
    rw [ran, Option.bind_some, winode_eq appended.inv allocated₁] at done
    cases done
    apply tidy.write appended.inv.few
    · intro b low
      exact iappendLoop_meta (inv.writes inum) allocated synced.2.2 ran low
    · intro j
      rw [Image.Allocated, appended.freeinode]
      constructor
      · exact Or.inl
      · rintro (before | rfl)
        · exact before
        · exact allocated
    · rw [← link, ← appended.toMeta]
  · rw [loop.2 fits] at done
    cases done

theorem Tidy.ialloc {type : UInt16} (tidy : Tidy s) (inv : Inv s g 0)
    (positive : 1 ≤ s.freeinode) (room : s.freeinode < ninodeblocks * IPB)
    (kind : type = if s.freeinode = ROOTINO then T_DIR else T_FILE)
    (done : s.ialloc type = some (inum, s')) : inum = s.freeinode ∧ Tidy s' := by
  have allocated : Image.Allocated { s with freeinode := s.freeinode + 1 } s.freeinode :=
    ⟨positive, Nat.lt_succ_self _⟩
  rw [Image.ialloc] at done
  simp only [winode_eq (inv.allocate room kind) allocated, Option.bind_eq_bind,
    Option.bind_some] at done
  cases done
  refine ⟨rfl, ?_⟩
  have few : Image.freeinode { s with freeinode := s.freeinode + 1 } ≤ ninodeblocks * IPB := room
  refine @Tidy.write s { s with freeinode := s.freeinode + 1 } _ _ tidy few ?_ ?_ ?_
  · intro b _
    rfl
  · intro j
    simp only [Image.Allocated]
    omega
  · rfl

/-! ## The image -/

/-- The image between two calls of `iappend` or `ialloc`. -/
structure Clean (s : Image) : Prop where
  inv : ∃ g, Inv s g 0
  tidy : Tidy s

namespace Clean

theorem iappend (clean : Clean s) (allocated : s.Allocated inum)
    (done : s.iappend inum p = some s') : Clean s' ∧ s'.freeinode = s.freeinode := by
  rcases clean.inv with ⟨g, inv⟩
  have spec := iappend_spec inv allocated p
  refine ⟨⟨?_, clean.tidy.iappend inv allocated done⟩, Image.iappend_freeinode done⟩
  by_cases fits : Mkfs.Fits s g inum p.length
  · rcases spec.1 fits with ⟨t, g', ran, wrote⟩
    rw [done] at ran
    cases ran
    exact ⟨g', wrote.inv⟩
  · rw [spec.2 fits] at done
    cases done

theorem ialloc {type : UInt16} (clean : Clean s) (positive : 1 ≤ s.freeinode)
    (room : s.freeinode < ninodeblocks * IPB)
    (kind : type = if s.freeinode = ROOTINO then T_DIR else T_FILE)
    (done : s.ialloc type = some (inum, s')) : inum = s.freeinode ∧ Clean s' := by
  rcases clean.inv with ⟨g, inv⟩
  rcases clean.tidy.ialloc inv positive room kind done with ⟨number, tidy⟩
  refine ⟨number, ?_, tidy⟩
  rcases ialloc_spec inv positive room kind with ⟨t, g', ran, inv', _⟩
  rw [done] at ran
  cases ran
  exact ⟨g', inv'⟩

theorem pieces {pieces : List (List UInt8)} (clean : Clean s) (allocated : s.Allocated inum)
    (done : pieces.foldlM (fun s piece => s.iappend inum piece) s = some s') : Clean s' := by
  induction pieces generalizing s with
  | nil =>
      rw [← Option.some.inj done]
      exact clean
  | cons piece pieces ih =>
      rw [List.foldlM_cons, Option.bind_eq_bind, Option.bind_eq_some_iff] at done
      rcases done with ⟨s₁, first, rest⟩
      rcases clean.iappend allocated first with ⟨clean₁, freeinode⟩
      apply ih clean₁ _ rest
      rw [Image.Allocated, freeinode]
      exact allocated

theorem addFile {input : Input} (clean : Clean s) (positive : ROOTINO < s.freeinode)
    (room : s.freeinode < ninodeblocks * IPB) (done : s.addFile ROOTINO input = some s') :
    Clean s' := by
  rw [Image.addFile] at done
  simp only [Option.bind_eq_bind, Option.bind_eq_some_iff] at done
  rcases done with ⟨⟨new, s₁⟩, allocation, s₂, entered, copied⟩
  have later := Image.ialloc_freeinode allocation
  rcases clean.ialloc (Nat.one_le_of_lt positive) room (by rw [if_neg positive.ne'])
    allocation with ⟨rfl, clean₁⟩
  have root : s₁.Allocated ROOTINO := ⟨le_refl _, by omega⟩
  rcases clean₁.iappend root entered with ⟨clean₂, freeinode⟩
  refine clean₂.pieces ⟨Nat.one_le_of_lt positive, ?_⟩ copied
  omega

theorem files (clean : Clean s) (positive : ROOTINO < s.freeinode)
    (room : s.freeinode + inputs.length ≤ ninodeblocks * IPB)
    (done : inputs.foldlM (Image.addFile ROOTINO) s = some s') : Clean s' := by
  induction inputs generalizing s with
  | nil =>
      rw [← Option.some.inj done]
      exact clean
  | cons input inputs ih =>
      rw [List.foldlM_cons, Option.bind_eq_bind, Option.bind_eq_some_iff] at done
      rw [List.length_cons] at room
      rcases done with ⟨s₁, first, rest⟩
      have later := Image.addFile_freeinode first
      exact ih (clean.addFile positive (by omega) first) (by omega) (by omega) rest

end Clean

theorem start_clean : Clean start where
  inv := ⟨⟨fun _ => Dinode.fresh 0, fun _ => [], fun _ => ∅, fun _ => 0⟩, start_inv _⟩
  tidy := by
    constructor
    · intro j inside _
      have block : start.view (sb.IBLOCK j) = zeroBlock := by
        change Function.update (fun _ => zeroBlock) 1 sbBlock (sb.IBLOCK j) = zeroBlock
        rw [Function.update_of_ne (IBLOCK_low inside).2.2]
      rw [Image.dinode, block]
      simp [Dinode.read, readLE_zeroBlock]
    · intro j allocated
      have below : j < 1 := allocated.2
      exact absurd allocated.1 (by omega)

/-- The image that is built. -/
theorem main_tidy (few : inputs.length ≤ 198) (done : main inputs = some s) : Tidy s := by
  rw [main] at done
  simp only [Option.bind_eq_bind, Option.bind_eq_some_iff] at done
  rcases done with ⟨⟨rootino, s₀⟩, allocation, done⟩
  rcases start_clean.ialloc (le_refl 1) (by decide) rfl allocation with ⟨rfl, clean₀⟩
  have freeinode₀ : s₀.freeinode = 2 := Image.ialloc_freeinode allocation
  split at done
  · cases done
  simp only [Option.bind_eq_some_iff] at done
  rcases done with ⟨s₁, entered₁, s₂, entered₂, s₃, added, s₄, fixed, marked⟩
  have root₀ : s₀.Allocated ROOTINO := ⟨le_refl 1, by rw [freeinode₀]; decide⟩
  rcases clean₀.iappend root₀ entered₁ with ⟨clean₁, freeinode₁⟩
  have root₁ : s₁.Allocated ROOTINO := ⟨le_refl 1, by rw [freeinode₁]; exact root₀.2⟩
  rcases clean₁.iappend root₁ entered₂ with ⟨clean₂, freeinode₂⟩
  have inodes : ninodeblocks * IPB = 208 := by decide
  have clean₃ := clean₂.files (by rw [freeinode₂, freeinode₁, freeinode₀]; decide)
    (by omega) added
  have freeinode₃ := Image.inputs_freeinode added
  have root₃ : s₃.Allocated ROOTINO := ⟨le_refl 1, by
    rw [freeinode₃, freeinode₂, freeinode₁, freeinode₀, ROOTINO]
    omega⟩
  rcases clean₃.inv with ⟨g, inv⟩
  have fixes : Tidy s₄ ∧ s₄.freeinode = s₃.freeinode := by
    have first : start.freeinode = ROOTINO := rfl
    rw [first, Image.fixRoot, inv.rinode root₃] at fixed
    simp only [Option.bind_eq_bind, Option.bind_some,
      winode_eq (inv.writes ROOTINO) root₃] at fixed
    cases fixed
    refine ⟨?_, rfl⟩
    apply clean₃.tidy.write inv.few (fun b _ => rfl)
    · intro j
      constructor
      · exact Or.inl
      · rintro (before | rfl)
        · exact before
        · exact root₃
    · exact clean₃.tidy.links ROOTINO root₃
  have few₄ : s₄.freeinode ≤ ninodeblocks * IPB := by
    rw [fixes.2]
    exact inv.few
  have bitmap : Image.sector sb.bmapstart = sb.bmapstart := sector_eq (by decide)
  rw [Image.balloc] at marked
  split at marked
  · cases marked
    have kept : ∀ j, j < ninodeblocks * IPB → Image.dinode (s₄.wsect sb.bmapstart
        ((List.range s₄.freeblock).foldl setBit zeroBlock)) j = s₄.dinode j := by
      intro j inside
      change Dinode.read (Function.update s₄.view (Image.sector sb.bmapstart) _ (sb.IBLOCK j)) _ = _
      rw [bitmap, Function.update_of_ne (IBLOCK_low inside).2.1, Image.dinode]
    constructor
    · intro j inside free
      rw [kept j inside]
      exact fixes.1.free j inside free
    · intro j allocated
      rw [kept j (lt_of_lt_of_le allocated.2 few₄)]
      exact fixes.1.links j allocated
  · cases marked

end PiKernel.Mkfs
