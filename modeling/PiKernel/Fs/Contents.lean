import PiKernel.Fs.Edits

/-!
# The contents of an inode

`bmap` and the loops of `readi` and `writei`, where no other process runs.  What they log
is counted besides the indirect block, which is logged over and over again.
-/

namespace PiKernel.Fs

open PiKernel.Bytes
open PiKernel.Conc

/-! ## The cost of an edit -/

/-- So many blocks are allocated when a file grows from `c` to `limit` blocks. -/
def newBlocks (e : Dinode) (c limit : Nat) : Nat :=
  (limit - c) + if NDIRECT < limit then 1 - e.indirects else 0

/-- The indirect block, if it is going to be logged. -/
def exempt (touch : Bool) (e : Dinode) : Finset Nat :=
  if touch = true ∧ e.addr NDIRECT ≠ 0 then {e.addr NDIRECT} else ∅

/-- The number of blocks that are logged, besides the indirect block. -/
def weight (touch : Bool) (e : Dinode) (bs : List Nat) : Nat :=
  (bs.toFinset \ exempt touch e).card

section Weight

variable {touch : Bool} {e e' : Dinode} {bs more : List Nat}

theorem card_exempt_le : (exempt touch e).card ≤ touch.toNat := by
  unfold exempt
  split <;> rename_i here
  · simp [here.1]
  · simp

theorem card_le_weight : bs.toFinset.card ≤ weight touch e bs + touch.toNat := by
  have parts := Finset.card_le_card_sdiff_add_card (s := bs.toFinset) (t := exempt touch e)
  have few : (exempt touch e).card ≤ touch.toNat := card_exempt_le
  unfold weight
  omega

@[simp]
theorem weight_nil : weight touch e [] = 0 := by
  simp [weight]

theorem weight_append : weight touch e (bs ++ more) ≤ weight touch e bs + weight touch e more := by
  unfold weight
  rw [List.toFinset_append, Finset.union_sdiff_distrib]
  exact Finset.card_union_le _ _

theorem weight_le_length : weight touch e bs ≤ bs.length :=
  (Finset.card_le_card Finset.sdiff_subset).trans (List.toFinset_card_le bs)

/-- An indirect block that has not been there before is not exempt. -/
theorem weight_fresh (same : e.addr NDIRECT ≠ 0 → e'.addr NDIRECT = e.addr NDIRECT) :
    weight touch e' bs ≤ weight touch e bs := by
  apply Finset.card_le_card
  apply Finset.sdiff_subset_sdiff (subset_refl _)
  unfold exempt
  split <;> rename_i here
  · rw [if_pos ⟨here.1, by rw [same here.2]; exact here.2⟩, same here.2]
  · exact Finset.empty_subset _

/-- Only some of the blocks count. -/
theorem weight_le {counted : List Nat}
    (only : ∀ b, b ∈ bs → b ∈ exempt touch e ∨ b ∈ counted) :
    weight touch e bs ≤ counted.length := by
  apply (Finset.card_le_card _).trans (List.toFinset_card_le counted)
  intro b member
  rw [Finset.mem_sdiff, List.mem_toFinset] at member
  rw [List.mem_toFinset]
  exact (only b member.1).resolve_left member.2

theorem mem_exempt {b : Nat} (here : touch = true) (used : e.addr NDIRECT ≠ 0) :
    b ∈ exempt touch e ↔ b = e.addr NDIRECT := by
  rw [exempt, if_pos ⟨here, used⟩, Finset.mem_singleton]

/-- A new block, its bitmap block and the indirect block. -/
theorem weight_entry {a b : Nat} (here : touch = true) (used : e.addr NDIRECT ≠ 0) :
    weight touch e [a, b, e.addr NDIRECT, b] ≤ 2 := by
  have counted : weight touch e [a, b, e.addr NDIRECT, b] ≤ [a, b].length := by
    apply weight_le
    intro x inside
    rw [mem_exempt here used]
    simp only [List.mem_cons, List.not_mem_nil, or_false] at inside ⊢
    rcases inside with same | same | same | same
    · exact Or.inr (Or.inl same)
    · exact Or.inr (Or.inr same)
    · exact Or.inl same
    · exact Or.inr (Or.inr same)
  exact counted

/-- A new indirect block and its bitmap block. -/
theorem weight_indirect {a b : Nat} (here : touch = true) (empty : e.addr NDIRECT = 0)
    (positive : b ≠ 0) (fits : b < 2 ^ 32) :
    weight touch (e.setAddr NDIRECT b) (bs ++ [a, b]) ≤ weight touch e bs + 1 := by
  have stored : (e.setAddr NDIRECT b).addr NDIRECT = b :=
    Dinode.addr_setAddr_same (Nat.lt_succ_self _) fits
  have old : weight touch (e.setAddr NDIRECT b) bs ≤ weight touch e bs :=
    weight_fresh fun used => absurd empty used
  have new : weight touch (e.setAddr NDIRECT b) [a, b] ≤ [a].length := by
    apply weight_le
    intro x member
    rw [mem_exempt here (by rw [stored]; exact positive), stored]
    simp only [List.mem_cons, List.not_mem_nil, or_false] at member ⊢
    exact member.symm
  exact weight_append.trans (Nat.add_le_add old new)

end Weight

variable {Pid : Type} [DecidableEq Pid] {sb : Superblock}
  {task : Tables Pid → Pid → Prog (Act Pid) Unit → Prop} {p : Pid} {mayPanic : String → Prop}
  {s : Blocks Pid} {ip : Fin NINODE} {d : Nat → Dinode} {count : Nat → Nat}
  {region : Nat → Set Nat} {bn : Nat}

/-! ## `bmap` -/

theorem bmapAddr_present {n : Nat} {post : Nat → Blocks Pid → Prop}
    (used : (s.inode ip).addr n ≠ 0) (holds : post ((s.inode ip).addr n) s) :
    (blocksSystem sb task).Ends p mayPanic post (bmapAddr sb ip n) s := by
  apply System.Ends.step rfl
  rw [if_neg used]
  exact System.Ends.ret holds

theorem bmapEntry_present {addr n : Nat} {post : Nat → Blocks Pid → Prop}
    (free : s.holder addr = none) (used : entry (s.view addr) n ≠ 0)
    (holds : post (entry (s.view addr) n) s) :
    (blocksSystem sb task).Ends p mayPanic post (bmapEntry sb addr n) s := by
  apply bread_ends free
  apply System.Ends.step rfl
  split <;> rename_i vacant
  · exact absurd vacant used
  · apply System.Ends.step rfl
    apply System.Ends.ret
    simp only [released free]
    exact holds

/-- A block of the file is there. -/
theorem bmap_present {owns : Set Nat} {c : Nat} {post : Nat → Blocks Pid → Prop}
    (quiet : ∀ b, s.holder b = none) (laid : Laid (s.inode ip) s.view owns c)
    (inside : bn < c) (holds : post ((s.inode ip).ref s.view bn) s) :
    (blocksSystem sb task).Ends p mayPanic post (bmap sb ip bn) s := by
  have used := laid.used inside
  unfold bmap
  split <;> rename_i direct
  · rw [Dinode.ref_direct direct] at used holds
    exact bmapAddr_present used holds
  · have small := laid.small
    have many : (s.inode ip).addr NDIRECT ≠ 0 := laid.indirect_used (by omega)
    have place : bn - NDIRECT < NINDIRECT := by
      simp only [MAXFILE] at small
      omega
    rw [Dinode.ref_entry direct (by omega) many] at used holds
    rw [if_pos place]
    apply System.Ends.bind
    apply bmapAddr_present many
    exact bmapEntry_present (quiet _) used holds

/-- An address is allocated. -/
theorem bmapAddr_absent {n : Nat} {post : Nat → Blocks Pid → Prop} (ordered : sb.Ordered)
    (quiet : ∀ b, s.holder b = none)
    (space : free sb s.view = ∅ → mayPanic outOfBlocks)
    (full : s.log.limit ≤ s.log.lh.n + 1 → mayPanic logFull)
    (vacant : (s.inode ip).addr n = 0)
    (holds : ∀ b, b ∈ free sb s.view → post b
      { s with
        view := balloced sb s.view b
        inode := Function.update s.inode ip ((s.inode ip).setAddr n b)
        toOps := s.toOps.absorbs p [sb.BBLOCK b, b] }) :
    (blocksSystem sb task).Ends p mayPanic post (bmapAddr sb ip n) s := by
  apply System.Ends.step rfl
  rw [if_pos vacant]
  apply System.Ends.bind
  apply balloc_ends ordered (Quiet.of_free quiet) space full
  intro b unused
  apply System.Ends.step rfl
  apply System.Ends.step rfl
  exact System.Ends.ret (holds b unused)

/-- An entry of the indirect block is allocated. -/
theorem bmapEntry_absent {n addr : Nat} {post : Nat → Blocks Pid → Prop}
    (ordered : sb.Ordered) (quiet : ∀ b, s.holder b = none)
    (low : sb.datastart ≤ addr) (taken : addr ∉ free sb s.view)
    (kept : ∀ b, b ∈ free sb s.view → balloced sb s.view b addr = s.view addr)
    (space : free sb s.view = ∅ → mayPanic outOfBlocks)
    (full : s.log.limit ≤ s.log.lh.n + 2 → mayPanic logFull)
    (vacant : entry (s.view addr) n = 0)
    (holds : ∀ b, b ∈ free sb s.view → post b
      { s with
        view := Function.update (balloced sb s.view b) addr (setEntry (s.view addr) n b)
        toOps := s.toOps.absorbs p [sb.BBLOCK b, b, addr] }) :
    (blocksSystem sb task).Ends p mayPanic post (bmapEntry sb addr n) s := by
  apply bread_ends (quiet addr)
  apply System.Ends.step rfl
  split <;> rename_i found
  · apply System.Ends.bind
    apply balloc_ends ordered
    · intro b need
      by_cases same : b = addr
      · subst same
        rcases need with need | need
        · omega
        · exact absurd need taken
      · simp only [Function.update_of_ne same]
        exact quiet b
    · exact space
    · intro short
      exact full (by simp only at short; omega)
    · intro b unused
      apply System.Ends.step rfl
      apply System.Ends.step rfl
      apply System.Ends.bind
      apply logWrite_ends
      · intro short
        apply full
        have grows : (s.toOps.absorbs p [sb.BBLOCK b, b]).log.lh.n ≤
            s.log.lh.n + [sb.BBLOCK b, b].toFinset.card := Logging.Ops.absorbs_n_le
        have few := List.toFinset_card_le [sb.BBLOCK b, b]
        have limit : (s.toOps.absorbs p [sb.BBLOCK b, b]).log.limit = s.log.limit :=
          Logging.Ops.absorbs_limit
        simp only [List.length_cons, List.length_nil] at few
        change (s.toOps.absorbs p [sb.BBLOCK b, b]).log.limit ≤
          (s.toOps.absorbs p [sb.BBLOCK b, b]).log.lh.n at short
        omega
      · apply System.Ends.step rfl
        apply System.Ends.ret
        have state := holds b unused
        simp only [released (quiet addr), kept b unused]
        exact state
  · exact absurd vacant found

/-- What `bmap` does where the file may get one block more. -/
structure Extended (sb : Superblock) (touch : Bool) (inum : Nat) (d : Nat → Dinode)
    (count : Nat → Nat) (region : Nat → Set Nat) (view : Nat → Block) (before : List Nat)
    (bn : Nat) (e : Dinode) (owns : Set Nat) (view' : Nat → Block) (bs : List Nat) :
    Prop where
  edit : ∀ off, Edit sb inum d count region view off [] e (max (count inum) (bn + 1)) owns view'
  total : max (count inum) (bn + 1) + e.indirects =
    count inum + (d inum).indirects + newBlocks (d inum) (count inum) (bn + 1)
  same : bn < count inum → e = d inum ∧ bs = []
  light : weight touch e (before ++ (bs ++ [e.ref view' bn])) ≤
    weight touch (d inum) before + 1 + newBlocks (d inum) (count inum) (bn + 1)

theorem newBlocks_present {e : Dinode} {c n : Nat} (inside : n ≤ c)
    (many : NDIRECT < n → e.indirects = 1) : newBlocks e c n = 0 := by
  unfold newBlocks
  split <;> rename_i large
  · rw [many large]
    omega
  · omega

theorem newBlocks_direct {e : Dinode} {c : Nat} (direct : c < NDIRECT) :
    newBlocks e c (c + 1) = 1 := by
  have few : ¬ NDIRECT < c + 1 := by omega
  rw [newBlocks, if_neg few]
  omega

theorem newBlocks_entry {e : Dinode} {c : Nat} (many : NDIRECT ≤ c) :
    newBlocks e c (c + 1) = 1 + (1 - e.indirects) := by
  rw [newBlocks, if_pos (by omega)]
  omega

namespace Extended

variable {touch : Bool} {inum b : Nat} {view view' : Nat → Block} {before bs : List Nat}
  {e : Dinode} {owns : Set Nat}

theorem direct_ref {c : Nat} (room : c < NDIRECT) (fits : b < 2 ^ 32) :
    (e.setAddr c b).ref view c = b := by
  rw [Dinode.ref_direct room]
  exact Dinode.addr_setAddr_same (by omega) fits

theorem entry_ref {c : Nat} (data : Block) (used : e.addr NDIRECT ≠ 0) (many : NDIRECT ≤ c)
    (small : c < MAXFILE) (fits : b < 2 ^ 32) :
    e.ref (Function.update view (e.addr NDIRECT) (setEntry data (c - NDIRECT) b)) c = b := by
  rw [Dinode.ref_entry (by omega) small used, Function.update_self, entry_setEntry_same _ fits]
  simp only [MAXFILE] at small
  omega

variable (owned : Owned sb d count region ∅ view) (live : Allocated sb d inum)

include owned live

/-- The block is there. -/
theorem present (inside : bn < count inum) :
    Extended sb touch inum d count region view before bn (d inum) (region inum) view [] := by
  have nothing : newBlocks (d inum) (count inum) (bn + 1) = 0 := by
    apply newBlocks_present inside
    intro many
    exact (owned.laid inum live).indirects (by omega)
  have reached : max (count inum) (bn + 1) = count inum := Nat.max_eq_left inside
  constructor
  · intro off
    rw [reached]
    exact Edit.refl owned off
  · rw [reached, nothing, Nat.add_zero]
  · exact fun _ => ⟨rfl, rfl⟩
  · rw [nothing, List.nil_append]
    apply weight_append.trans
    exact Nat.add_le_add_left weight_le_length _

variable (ordered : sb.Ordered) (unused : b ∈ free sb view)

include ordered unused

/-- The block gets a direct address. -/
theorem direct (room : count inum < NDIRECT) :
    Extended sb touch inum d count region view before (count inum)
      ((d inum).setAddr (count inum) b) (insert b (region inum)) (balloced sb view b)
      [sb.BBLOCK b, b] := by
  have other : NDIRECT ≠ count inum := by omega
  have same : ((d inum).setAddr (count inum) b).addr NDIRECT = (d inum).addr NDIRECT :=
    Dinode.addr_setAddr_other other
  have reached : max (count inum) (count inum + 1) = count inum + 1 :=
    Nat.max_eq_right (Nat.le_succ _)
  constructor
  · intro off
    rw [reached]
    exact Edit.direct owned ordered live unused room
  · rw [reached, newBlocks_direct room, Dinode.indirects, same, Dinode.indirects]
    omega
  · exact fun less => absurd less (Nat.lt_irrefl _)
  · rw [direct_ref room (ordered.free_lt unused), newBlocks_direct room]
    have old : weight touch ((d inum).setAddr (count inum) b) before ≤
        weight touch (d inum) before := weight_fresh fun _ => same
    have new : weight touch ((d inum).setAddr (count inum) b) ([sb.BBLOCK b, b] ++ [b]) ≤
        [sb.BBLOCK b, b].length := by
      apply weight_le
      intro x member
      right
      simpa using member
    apply weight_append.trans
    rw [Nat.add_assoc]
    exact Nat.add_le_add old new

variable (used : (d inum).addr NDIRECT ≠ 0) (many : NDIRECT ≤ count inum)
  (small : count inum < MAXFILE)

include used many small

/-- The block gets an entry in the indirect block. -/
theorem entry (touches : touch = true) :
    Extended sb touch inum d count region view before (count inum) (d inum)
      (insert b (region inum))
      (Function.update (balloced sb view b) ((d inum).addr NDIRECT)
        (setEntry (view ((d inum).addr NDIRECT)) (count inum - NDIRECT) b))
      [sb.BBLOCK b, b, (d inum).addr NDIRECT] := by
  have indirects : (d inum).indirects = 1 := if_neg used
  have reached : max (count inum) (count inum + 1) = count inum + 1 :=
    Nat.max_eq_right (Nat.le_succ _)
  constructor
  · intro off
    rw [reached]
    exact Edit.entry owned ordered live unused used many small
  · rw [reached, newBlocks_entry many, indirects]
  · exact fun less => absurd less (Nat.lt_irrefl _)
  · rw [entry_ref _ used many small (ordered.free_lt unused), newBlocks_entry many, indirects]
    apply weight_append.trans
    exact Nat.add_le_add_left (weight_entry touches used) _

omit used small

/-- The indirect block is allocated before. -/
theorem after (empty : (d inum).addr NDIRECT = 0) (touches : touch = true)
    (rest : Extended sb touch inum (Function.update d inum ((d inum).setAddr NDIRECT b))
      (Function.update count inum (count inum))
      (Function.update region inum (insert b (region inum))) (balloced sb view b)
      (before ++ [sb.BBLOCK b, b]) (count inum) e owns view' bs) :
    Extended sb touch inum d count region view before (count inum) e owns view'
      ([sb.BBLOCK b, b] ++ bs) := by
  have first : ∀ off, Edit sb inum d count region view off [] _ _ _ _ :=
    fun off => Edit.indirectBlock owned ordered live unused empty
  have positive := owned.new_ne_zero ordered unused
  have stored : ((d inum).setAddr NDIRECT b).addr NDIRECT = b :=
    Dinode.addr_setAddr_same (Nat.lt_succ_self _) (ordered.free_lt unused)
  have none : (d inum).indirects = 0 := if_pos empty
  have one : ((d inum).setAddr NDIRECT b).indirects = 1 := by
    rw [Dinode.indirects, stored, if_neg positive]
  have total := rest.total
  have light := rest.light
  have later := rest.edit
  rw [Function.update_self, Function.update_self, newBlocks_entry many, one] at total light
  rw [Function.update_self] at later
  constructor
  · intro off
    exact Edit.trans (m := 0) (first off) (later off) (Nat.zero_le _) (Or.inr rfl)
  · rw [newBlocks_entry many, none, total]
  · exact fun less => absurd less (Nat.lt_irrefl _)
  · rw [List.append_assoc, ← List.append_assoc before]
    apply light.trans
    have pair : weight touch ((d inum).setAddr NDIRECT b) (before ++ [sb.BBLOCK b, b]) ≤
        weight touch (d inum) before + 1 :=
      weight_indirect touches empty positive (ordered.free_lt unused)
    rw [newBlocks_entry many, none]
    omega

end Extended

section Bmap

variable {ops : Logging.Ops Pid} {before : List Nat} {budget : Nat} {touch : Bool}

/-- The log is full only if the budget exceeds it. -/
theorem full_of_absorbs {more : Nat}
    (full : ops.log.limit ≤ ops.log.lh.n + budget → mayPanic logFull)
    (room : before.toFinset.card + more ≤ budget) :
    (ops.absorbs p before).log.limit ≤ (ops.absorbs p before).log.lh.n + more →
      mayPanic logFull := by
  intro short
  apply full
  have limit : (ops.absorbs p before).log.limit = ops.log.limit := Logging.Ops.absorbs_limit
  have grows : (ops.absorbs p before).log.lh.n ≤ ops.log.lh.n + before.toFinset.card :=
    Logging.Ops.absorbs_n_le
  omega

theorem full_of_card {more : Nat} (logged : s.toOps = ops.absorbs p before)
    (full : ops.log.limit ≤ ops.log.lh.n + budget → mayPanic logFull)
    (room : before.toFinset.card + more ≤ budget) :
    s.log.limit ≤ s.log.lh.n + more → mayPanic logFull := by
  rw [logged]
  exact full_of_absorbs full room

variable (ordered : sb.Ordered) (quiet : ∀ b, s.holder b = none)
  (owned : Owned sb d count region ∅ s.view) (mine : d (s.inum ip) = s.inode ip)
  (live : Allocated sb d (s.inum ip)) (logged : s.toOps = ops.absorbs p before)
  (full : ops.log.limit ≤ ops.log.lh.n + budget → mayPanic logFull)

include ordered quiet owned mine live logged full

/-- The next entry of the indirect block. -/
theorem bmapEntry_ends {addr c : Nat} {post : Nat → Blocks Pid → Prop}
    (place : (s.inode ip).addr NDIRECT = addr) (used : addr ≠ 0)
    (last : count (s.inum ip) = c) (many : NDIRECT ≤ c) (small : c < MAXFILE)
    (touches : touch = true)
    (space : free sb s.view = ∅ → mayPanic outOfBlocks)
    (room : weight touch (s.inode ip) before + 3 ≤ budget)
    (holds : ∀ owns view bs, Extended sb touch (s.inum ip) d count region s.view before
      c (s.inode ip) owns view bs →
      post ((s.inode ip).ref view c)
        { s with
          view := view
          toOps := ops.absorbs p (before ++ bs) }) :
    (blocksSystem sb task).Ends p mayPanic post (bmapEntry sb addr (c - NDIRECT)) s := by
  subst place last
  rw [← mine] at used holds room ⊢
  have laid := owned.laid _ live
  have member := laid.indirect used
  have vacant := laid.vacant small
  rw [Dinode.ref_entry (by omega) small used] at vacant
  have card : before.toFinset.card ≤ weight touch (d (s.inum ip)) before + touch.toNat :=
    card_le_weight
  have indirect : touch.toNat = 1 := by rw [touches, Bool.toNat_true]
  apply bmapEntry_absent ordered quiet (owned.inside _ _ member).1
  · intro unused
    have marked := owned.used_of_mem member
    rw [(mem_free.mp unused).2] at marked
    cases marked
  · exact fun b unused => owned.balloced_same ordered unused member
  · exact space
  · exact full_of_card logged full (by omega)
  · exact vacant
  · intro b unused
    have state := holds _ _ _
      (Extended.entry owned live ordered unused used many small touches)
    rw [Extended.entry_ref _ used many small (ordered.free_lt unused),
      Logging.Ops.absorbs_append, ← logged] at state
    exact state

/-- Return the disk block address of the nth block, the last of which may be new. -/
theorem bmap_ends {post : Nat → Blocks Pid → Prop} (bound : bn ≤ count (s.inum ip))
    (small : bn < MAXFILE)
    (touches : count (s.inum ip) ≤ bn → NDIRECT ≤ bn → touch = true)
    (space : (free sb s.view).card < newBlocks (s.inode ip) (count (s.inum ip)) (bn + 1) →
      mayPanic outOfBlocks)
    (room : count (s.inum ip) ≤ bn → weight touch (s.inode ip) before + 1 +
      newBlocks (s.inode ip) (count (s.inum ip)) (bn + 1) + touch.toNat ≤ budget)
    (holds : ∀ e owns view bs, Extended sb touch (s.inum ip) d count region s.view before bn e
      owns view bs →
      post (e.ref view bn)
        { s with
          view := view
          inode := Function.update s.inode ip e
          toOps := ops.absorbs p (before ++ bs) }) :
    (blocksSystem sb task).Ends p mayPanic post (bmap sb ip bn) s := by
  have laid := owned.laid _ live
  have card : before.toFinset.card ≤ weight touch (s.inode ip) before + touch.toNat :=
    card_le_weight
  rcases Nat.lt_or_eq_of_le bound with inside | rfl
  · rw [mine] at laid
    apply bmap_present quiet laid inside
    have state := holds _ _ _ _ (Extended.present owned live inside)
    rw [mine, Function.update_eq_self, List.append_nil, ← logged] at state
    exact state
  · replace room := room le_rfl
    have positive : 1 ≤ newBlocks (s.inode ip) (count (s.inum ip)) (count (s.inum ip) + 1) := by
      unfold newBlocks
      omega
    have empty : free sb s.view = ∅ → mayPanic outOfBlocks := by
      intro none
      apply space
      rw [none, Finset.card_empty]
      omega
    unfold bmap
    split <;> rename_i direct
    · have vacant := laid.vacant small
      rw [Dinode.ref_direct direct, mine] at vacant
      apply bmapAddr_absent ordered quiet empty
      · exact full_of_card logged full (by omega)
      · exact vacant
      · intro b unused
        have state := holds _ _ _ _ (Extended.direct owned live ordered unused direct)
        rw [Extended.direct_ref direct (ordered.free_lt unused),
          Logging.Ops.absorbs_append, ← logged, mine] at state
        exact state
    · have many : NDIRECT ≤ count (s.inum ip) := by omega
      have touches := touches le_rfl many
      have place : count (s.inum ip) - NDIRECT < NINDIRECT := by
        simp only [MAXFILE] at small
        omega
      have one : touch.toNat = 1 := by rw [touches, Bool.toNat_true]
      rw [newBlocks_entry many, one] at room
      rw [newBlocks_entry many] at space
      rw [if_pos place]
      apply System.Ends.bind
      by_cases used : (s.inode ip).addr NDIRECT = 0
      · have none : (s.inode ip).indirects = 0 := if_pos used
        apply bmapAddr_absent ordered quiet empty
        · exact full_of_card logged full (by omega)
        · exact used
        · intro a unused
          have vacant : (d (s.inum ip)).addr NDIRECT = 0 := by rwa [mine]
          have edit : Edit sb (s.inum ip) d count region s.view 0 [] _ _ _ _ :=
            Edit.indirectBlock owned ordered live unused vacant
          have after : ∀ e owns view bs, Extended sb touch (s.inum ip) _ _ _ _ _ _ e owns view bs →
              Extended sb touch (s.inum ip) d count region s.view before
                (count (s.inum ip)) e owns view ([sb.BBLOCK a, a] ++ bs) :=
            fun e owns view bs => Extended.after owned live ordered unused many vacant touches
          have grown := edit.owned
          rw [mine] at grown after
          have logs : s.toOps.absorbs p [sb.BBLOCK a, a] =
              ops.absorbs p (before ++ [sb.BBLOCK a, a]) := by
            rw [logged, ← Logging.Ops.absorbs_append]
          apply bmapEntry_ends ordered
          · exact quiet
          · exact grown
          · change Function.update d (s.inum ip) _ (s.inum ip) = Function.update s.inode ip _ ip
            rw [Function.update_self, Function.update_self]
          · refine ⟨live.1, ?_⟩
            rw [Function.update_self]
            exact mine ▸ live.2
          · exact logs
          · exact full
          · simp only [Function.update_self]
            exact Dinode.addr_setAddr_same (Nat.lt_succ_self _) (ordered.free_lt unused)
          · exact owned.new_ne_zero ordered unused
          · exact Function.update_self ..
          · exact many
          · exact small
          · exact touches
          · intro nothing
            apply space
            rw [owned.free_balloced ordered unused] at nothing
            have last := Finset.card_erase_add_one unused
            rw [nothing, Finset.card_empty] at last
            omega
          · have light : weight touch ((s.inode ip).setAddr NDIRECT a)
                (before ++ [sb.BBLOCK a, a]) ≤ weight touch (s.inode ip) before + 1 :=
              weight_indirect touches used (owned.new_ne_zero ordered unused)
                (ordered.free_lt unused)
            simp only [Function.update_self]
            omega
          · intro owns view bs extended
            simp only [Function.update_self] at extended ⊢
            have state := holds _ _ _ _ (after _ _ _ _ extended)
            rw [← List.append_assoc] at state
            exact state
      · apply bmapAddr_present used
        apply bmapEntry_ends ordered quiet owned mine live logged full rfl used rfl many small
          touches empty
        · omega
        · intro owns view bs extended
          rw [← mine] at extended ⊢
          have state := holds _ _ _ _ extended
          rw [mine, Function.update_eq_self] at state
          rw [mine]
          exact state

end Bmap

/-! ## Blocks of a range -/

theorem blocks_le_iff {size c : Nat} : blocks size ≤ c ↔ size ≤ c * BSIZE := by
  rw [blocks, ← Nat.lt_succ_iff, Nat.div_lt_iff_lt_mul (by simp [BSIZE])]
  simp only [BSIZE]
  omega

theorem div_lt_blocks {k size : Nat} (below : k < size) : k / BSIZE < blocks size := by
  have reached := blocks_le_iff.mp (le_refl (blocks size))
  exact (Nat.div_lt_iff_lt_mul (by simp [BSIZE])).mpr (lt_of_lt_of_le below reached)

/-- Where the part of a range in its first block ends. -/
theorem chunk_end {off n : Nat} (more : n - min n (BSIZE - off % BSIZE) ≠ 0) :
    (off + min n (BSIZE - off % BSIZE)) / BSIZE = off / BSIZE + 1 := by
  simp only [BSIZE] at more ⊢
  omega

theorem chunk_le {off n : Nat} :
    off + min n (BSIZE - off % BSIZE) ≤ (off / BSIZE + 1) * BSIZE := by
  simp only [BSIZE]
  omega

theorem chunk_inside {off n : Nat} : off % BSIZE + min n (BSIZE - off % BSIZE) ≤ BSIZE := by
  simp only [BSIZE]
  omega

theorem newBlocks_mono {e : Dinode} {c first last : Nat} (le : first ≤ last) :
    newBlocks e c first ≤ newBlocks e c last := by
  unfold newBlocks
  split <;> split <;> omega

/-- A file that grows by some of its blocks needs the others later. -/
theorem newBlocks_split {e e' : Dinode} {c first last : Nat} (within : first ≤ last)
    (many : NDIRECT < c → e.indirects = 1)
    (total : max c first + e'.indirects = c + e.indirects + newBlocks e c first) :
    newBlocks e c last = newBlocks e c first + newBlocks e' (max c first) last := by
  have few := e.indirects_le
  rcases Nat.le_total first c with inside | grows
  · have nothing : newBlocks e c first = 0 :=
      newBlocks_present inside fun large => many (by omega)
    rw [nothing, Nat.max_eq_left inside] at total ⊢
    have same : e'.indirects = e.indirects := by omega
    rw [newBlocks, newBlocks, same, Nat.zero_add]
  · rw [Nat.max_eq_right grows] at total ⊢
    unfold newBlocks at total ⊢
    split at total <;> split <;> omega

/-! ## `readi` -/

/-- So many bytes of the contents. -/
def Dinode.slice (d : Dinode) (view : Nat → Block) (off n : Nat) : List UInt8 :=
  (List.range n).map fun k => d.byte view (off + k)

theorem Dinode.slice_add {e : Dinode} {view : Nat → Block} {off first second : Nat} :
    e.slice view off (first + second) =
      e.slice view off first ++ e.slice view (off + first) second := by
  simp only [Dinode.slice, List.range_add, List.map_append, List.map_map, Function.comp_def,
    Nat.add_assoc]

/-- The part of a range in its first block. -/
theorem Dinode.slice_block {e : Dinode} {view : Nat → Block} {off m : Nat}
    (inside : off % BSIZE + m ≤ BSIZE) :
    e.slice view off m = Bytes.slice (view (e.ref view (off / BSIZE))) (off % BSIZE) m := by
  apply List.map_congr_left
  intro k member
  have below := List.mem_range.mp member
  have row : (off + k) / BSIZE = off / BSIZE := by
    simp only [BSIZE] at inside ⊢
    omega
  have place : (off + k) % BSIZE = off % BSIZE + k := by
    simp only [BSIZE] at inside ⊢
    omega
  rw [Dinode.byte, row, place]

theorem readLoop_ends {owns : Set Nat} {c : Nat} {post : List UInt8 → Blocks Pid → Prop}
    (quiet : ∀ b, s.holder b = none) (laid : Laid (s.inode ip) s.view owns c)
    (todo off n : Nat) (inside : off + n ≤ c * BSIZE)
    (rounds : n ≠ 0 → blocks (off + n) ≤ off / BSIZE + todo)
    (holds : post ((s.inode ip).slice s.view off n) s) :
    (blocksSystem sb task).Ends p mayPanic post (readLoop sb ip todo off n) s := by
  induction todo generalizing off n post with
  | zero =>
      have done : n = 0 := by
        by_contra more
        have reached := div_lt_blocks (show off < off + n by omega)
        have rounds := rounds more
        omega
      rw [done] at holds
      exact System.Ends.ret holds
  | succ todo ih =>
      unfold readLoop
      split <;> rename_i empty
      · rw [empty] at holds
        exact System.Ends.ret holds
      · have here : off / BSIZE < c := by
          apply (Nat.div_lt_iff_lt_mul (by simp [BSIZE])).mpr
          omega
        apply System.Ends.bind
        apply bmap_present quiet laid here
        apply bread_ends (quiet _)
        apply System.Ends.step rfl
        apply System.Ends.step rfl
        simp only [released (quiet _)]
        apply System.Ends.bind
        have total : off + min n (BSIZE - off % BSIZE) + (n - min n (BSIZE - off % BSIZE)) =
            off + n := by omega
        apply ih
        · omega
        · intro more
          rw [total, chunk_end more]
          have rounds := rounds empty
          omega
        · apply System.Ends.ret
          rw [← Dinode.slice_block chunk_inside, ← Dinode.slice_add]
          rwa [Nat.add_sub_cancel' (Nat.min_le_left _ _)]

/-! ## `writei` -/

/-- So many blocks hold some bytes of a file. -/
def spanned (off n : Nat) : Nat :=
  if n = 0 then 0 else blocks (off + n) - off / BSIZE

/-- What the loop of `writei` does to the blocks. -/
structure Written (sb : Superblock) (touch : Bool) (inum : Nat) (d : Nat → Dinode)
    (count : Nat → Nat) (region : Nat → Set Nat) (view : Nat → Block) (before : List Nat)
    (off : Nat) (src : List UInt8) (e : Dinode) (owns : Set Nat) (view' : Nat → Block)
    (bs : List Nat) : Prop where
  edit : Edit sb inum d count region view off src e
    (max (count inum) (blocks (off + src.length))) owns view'
  same : blocks (off + src.length) ≤ count inum → e = d inum
  total : max (count inum) (blocks (off + src.length)) + e.indirects =
    count inum + (d inum).indirects +
      newBlocks (d inum) (count inum) (blocks (off + src.length))
  light : weight touch e (before ++ bs) ≤ weight touch (d inum) before +
    spanned off src.length + newBlocks (d inum) (count inum) (blocks (off + src.length))

section Written

variable {touch : Bool} {inum off m : Nat} {view view' view'' : Nat → Block}
  {before bs more : List Nat} {src : List UInt8} {e e' : Dinode} {owns owns' : Set Nat}

theorem spanned_next (off : Nat) {n : Nat} (some : n ≠ 0) :
    spanned (off + min n (BSIZE - off % BSIZE)) (n - min n (BSIZE - off % BSIZE)) + 1 ≤
      spanned off n := by
  have below : off / BSIZE < blocks (off + n) := div_lt_blocks (by omega)
  have total : off + min n (BSIZE - off % BSIZE) + (n - min n (BSIZE - off % BSIZE)) =
      off + n := by omega
  unfold spanned
  rw [if_neg some, total]
  split <;> rename_i done
  · omega
  · rw [chunk_end done]
    omega

/-- Nothing is written. -/
theorem Written.nil (owned : Owned sb d count region ∅ view)
    (laid : Laid (d inum) view (region inum) (count inum)) (start : off ≤ count inum * BSIZE) :
    Written sb touch inum d count region view before off [] (d inum) (region inum) view [] := by
  have within : blocks (off + ([] : List UInt8).length) ≤ count inum := blocks_le_iff.mpr start
  have reached := Nat.max_eq_left within
  constructor
  · rw [reached]
    exact Edit.refl owned off
  · exact fun _ => rfl
  · rw [reached, newBlocks_present within fun many => laid.indirects (by omega), Nat.add_zero]
  · rw [List.append_nil]
    omega

/-- The first block is written, after which the rest is. -/
theorem Written.cons (ordered : sb.Ordered) (live : Allocated sb d inum)
    (laid : Laid (d inum) view (region inum) (count inum)) (bound : off / BSIZE ≤ count inum)
    (some : src.length ≠ 0) (chunk : m = min src.length (BSIZE - off % BSIZE))
    (first : Extended sb touch inum d count region view before (off / BSIZE) e owns view' bs)
    (rest : Written sb touch inum (Function.update d inum e)
      (Function.update count inum (max (count inum) (off / BSIZE + 1)))
      (Function.update region inum owns)
      (Function.update view' (e.ref view' (off / BSIZE))
        (splice (view' (e.ref view' (off / BSIZE))) (off % BSIZE) (src.take m)))
      (before ++ (bs ++ [e.ref view' (off / BSIZE)])) (off + m) (src.drop m) e' owns' view''
      more) :
    Written sb touch inum d count region view before off src e' owns' view''
      (bs ++ [e.ref view' (off / BSIZE)] ++ more) := by
  have below : off / BSIZE < blocks (off + src.length) := div_lt_blocks (by omega)
  have within : m ≤ src.length := by omega
  have length : (src.take m).length = m := by rw [List.length_take, Nat.min_eq_left within]
  have total : off + m + (src.drop m).length = off + src.length := by
    rw [List.length_drop]
    omega
  have end_le : off + m ≤ (off / BSIZE + 1) * BSIZE := by
    rw [chunk]
    exact chunk_le
  have reached : max (max (count inum) (off / BSIZE + 1)) (blocks (off + src.length)) =
      max (count inum) (blocks (off + src.length)) := by omega
  have grown := first.edit off
  have later := rest.edit
  have same := rest.same
  have sum := rest.total
  have light := rest.light
  have split : newBlocks (d inum) (count inum) (blocks (off + src.length)) =
      newBlocks (d inum) (count inum) (off / BSIZE + 1) +
        newBlocks e (max (count inum) (off / BSIZE + 1)) (blocks (off + src.length)) :=
    newBlocks_split below laid.indirects first.total
  rw [total, Function.update_self] at later same sum light
  rw [reached] at later sum
  rw [Function.update_self] at same sum light
  have here := grown.overwrite ordered live (show off / BSIZE < _ by omega) rfl
    (show off % BSIZE + (src.take m).length ≤ BSIZE by rw [length, chunk]; exact chunk_inside)
  constructor
  · apply Edit.trans here later within
    left
    apply end_le.trans
    exact Nat.mul_le_mul_right _ (Nat.le_max_right ..)
  · intro fits
    rw [same (by omega)]
    exact (first.same (by omega)).1
  · have before := first.total
    omega
  · rw [← List.append_assoc before]
    have now := first.light
    have spans : spanned (off + m) (src.drop m).length + 1 ≤ spanned off src.length := by
      rw [chunk, List.length_drop]
      exact spanned_next _ some
    omega

theorem Written.card_le
    (written : Written sb touch inum d count region view [] off src e owns view' bs) :
    bs.toFinset.card ≤ spanned off src.length +
      newBlocks (d inum) (count inum) (blocks (off + src.length)) + touch.toNat := by
  have light := written.light
  rw [List.nil_append, weight_nil, Nat.zero_add] at light
  exact card_le_weight.trans (Nat.add_le_add_right light _)

end Written

/-- A write that gets no new block may log its last block where the log has room for one. -/
def slack (c limit : Nat) : Nat :=
  if limit ≤ c then 1 else 0

section Room

variable {touch : Bool} {inum off n budget : Nat} {view view' : Nat → Block}
  {before bs : List Nat} {e : Dinode} {owns : Set Nat}
  (laid : Laid (d inum) view (region inum) (count inum)) (some : n ≠ 0)
  (room : weight touch (d inum) before + spanned off n +
    newBlocks (d inum) (count inum) (blocks (off + n)) + touch.toNat ≤
      budget + slack (count inum) (blocks (off + n)))
  (extended : Extended sb touch inum d count region view before (off / BSIZE) e owns view' bs)

include laid some room extended

/-- There is room for the blocks after the first one. -/
theorem Extended.room_rest :
    weight touch e (before ++ (bs ++ [e.ref view' (off / BSIZE)])) +
      spanned (off + min n (BSIZE - off % BSIZE)) (n - min n (BSIZE - off % BSIZE)) +
        newBlocks e (max (count inum) (off / BSIZE + 1)) (blocks (off + n)) + touch.toNat ≤
      budget + slack (max (count inum) (off / BSIZE + 1)) (blocks (off + n)) := by
  have below : off / BSIZE < blocks (off + n) := div_lt_blocks (by omega)
  have light := extended.light
  have next := spanned_next off some
  have split : newBlocks (d inum) (count inum) (blocks (off + n)) =
      newBlocks (d inum) (count inum) (off / BSIZE + 1) +
        newBlocks e (max (count inum) (off / BSIZE + 1)) (blocks (off + n)) :=
    newBlocks_split below laid.indirects extended.total
  have later : slack (count inum) (blocks (off + n)) ≤
      slack (max (count inum) (off / BSIZE + 1)) (blocks (off + n)) := by
    unfold slack
    split <;> split <;> omega
  omega

/-- There is room for the first block after what `bmap` has logged. -/
theorem Extended.room_first : (before ++ bs).toFinset.card + 0 ≤ budget := by
  have below : off / BSIZE < blocks (off + n) := div_lt_blocks (by omega)
  by_cases inside : blocks (off + n) ≤ count inum
  · -- `bmap` has logged nothing.
    rw [(extended.same (by omega)).2, List.append_nil]
    have card : before.toFinset.card ≤ weight touch (d inum) before + touch.toNat :=
      card_le_weight
    have spans : spanned off n = blocks (off + n) - off / BSIZE := if_neg some
    have one : slack (count inum) (blocks (off + n)) = 1 := if_pos inside
    omega
  · have rest := extended.room_rest laid some room
    have card : (before ++ (bs ++ [e.ref view' (off / BSIZE)])).toFinset.card ≤
        weight touch e _ + touch.toNat := card_le_weight
    have part : (before ++ bs).toFinset ⊆
        (before ++ (bs ++ [e.ref view' (off / BSIZE)])).toFinset := by
      intro x member
      simp only [List.mem_toFinset, List.mem_append] at member ⊢
      tauto
    have fewer := Finset.card_le_card part
    have new : slack (count inum) (blocks (off + n)) = 0 := if_neg inside
    have light := extended.light
    have next := spanned_next off some
    have grows : newBlocks (d inum) (count inum) (off / BSIZE + 1) ≤
        newBlocks (d inum) (count inum) (blocks (off + n)) := newBlocks_mono below
    omega

end Room

/-- A part of a block is replaced. -/
theorem overwrite_ends {α : Type} {b start : Nat} {bytes : List UInt8}
    {post : α → Blocks Pid → Prop} {next : Prog (Low Pid) α} (free : s.holder b = none)
    (full : s.log.limit ≤ s.log.lh.n → mayPanic logFull)
    (later : (blocksSystem sb task).Ends p mayPanic post next
      { s with
        view := Function.update s.view b (splice (s.view b) start bytes)
        toOps := s.toOps.absorb p b }) :
    (blocksSystem sb task).Ends p mayPanic post
      (do
        block (.bread b)
        let data ← block (.load b)
        block (.store b (splice data start bytes))
        logWrite b
        block (.brelse b)
        next) s := by
  apply bread_ends free
  apply System.Ends.step rfl
  apply System.Ends.step rfl
  apply System.Ends.bind
  apply logWrite_ends
  · exact full
  · apply System.Ends.step rfl
    simp only [released free]
    exact later

/-- The loop is at its end. -/
theorem nothing_written {ops : Logging.Ops Pid} {before : List Nat} {touch : Bool} {off : Nat}
    {src : List UInt8} {post : Nat → Blocks Pid → Prop} (owned : Owned sb d count region ∅ s.view)
    (mine : d (s.inum ip) = s.inode ip) (live : Allocated sb d (s.inum ip))
    (logged : s.toOps = ops.absorbs p before) (start : off ≤ count (s.inum ip) * BSIZE)
    (holds : ∀ e owns view bs,
      Written sb touch (s.inum ip) d count region s.view before off src e owns view bs →
      post (off + src.length)
        { s with
          view := view
          inode := Function.update s.inode ip e
          toOps := ops.absorbs p (before ++ bs) })
    (done : src = []) : post off s := by
  subst done
  have state := holds _ _ _ _ (Written.nil owned (owned.laid _ live) start)
  rwa [mine, Function.update_eq_self, List.append_nil, ← logged] at state

theorem writeLoop_ends {ops : Logging.Ops Pid} {before : List Nat} {budget : Nat}
    {touch : Bool} {src : List UInt8} {post : Nat → Blocks Pid → Prop} (ordered : sb.Ordered)
    (full : src.length ≠ 0 → ops.log.limit ≤ ops.log.lh.n + budget → mayPanic logFull)
    (quiet : ∀ b, s.holder b = none)
    (owned : Owned sb d count region ∅ s.view) (mine : d (s.inum ip) = s.inode ip)
    (live : Allocated sb d (s.inum ip)) (logged : s.toOps = ops.absorbs p before)
    (todo off : Nat) (start : off ≤ count (s.inum ip) * BSIZE)
    (fits : off + src.length ≤ MAXFILE * BSIZE)
    (rounds : spanned off src.length ≤ todo)
    (touches : count (s.inum ip) < blocks (off + src.length) →
      NDIRECT < blocks (off + src.length) → touch = true)
    (space : src.length ≠ 0 → (free sb s.view).card <
      newBlocks (s.inode ip) (count (s.inum ip)) (blocks (off + src.length)) →
        mayPanic outOfBlocks)
    (room : weight touch (s.inode ip) before + spanned off src.length +
      newBlocks (s.inode ip) (count (s.inum ip)) (blocks (off + src.length)) +
        touch.toNat ≤ budget + slack (count (s.inum ip)) (blocks (off + src.length)))
    (holds : ∀ e owns view bs,
      Written sb touch (s.inum ip) d count region s.view before off src e owns view bs →
      post (off + src.length)
        { s with
          view := view
          inode := Function.update s.inode ip e
          toOps := ops.absorbs p (before ++ bs) }) :
    (blocksSystem sb task).Ends p mayPanic post (writeLoop sb ip todo off src) s := by
  induction todo generalizing s d count region before off src post with
  | zero =>
      apply System.Ends.ret
      apply nothing_written owned mine live logged start holds
      by_contra more
      have positive := List.length_pos_iff.mpr more
      have reached := div_lt_blocks (show off < off + src.length by omega)
      rw [spanned, if_neg (by omega)] at rounds
      omega
  | succ todo ih =>
      unfold writeLoop
      split <;> rename_i some
      · apply System.Ends.ret
        apply nothing_written owned mine live logged start holds
        exact List.length_eq_zero_iff.mp some
      · have below : off / BSIZE < blocks (off + src.length) := div_lt_blocks (by omega)
        have spans : spanned off src.length = blocks (off + src.length) - off / BSIZE :=
          if_neg some
        have bound : off / BSIZE ≤ count (s.inum ip) :=
          Nat.div_le_of_le_mul (by rwa [Nat.mul_comm])
        have small : off / BSIZE < MAXFILE := by
          apply (Nat.div_lt_iff_lt_mul (by simp [BSIZE])).mpr
          omega
        have grows : newBlocks (s.inode ip) (count (s.inum ip)) (off / BSIZE + 1) ≤
            newBlocks (s.inode ip) (count (s.inum ip)) (blocks (off + src.length)) :=
          newBlocks_mono below
        have laid := owned.laid _ live
        apply System.Ends.bind
        apply bmap_ends ordered quiet owned mine live logged (full some) bound small
        · intro last many
          exact touches (by omega) (by omega)
        · intro short
          exact space some (by omega)
        · intro last
          have new : slack (count (s.inum ip)) (blocks (off + src.length)) = 0 :=
            if_neg (by omega)
          omega
        · intro e owns view bs extended
          have grown := extended.edit off
          have fields := congrArg Meta.type grown.fields
          have within : min src.length (BSIZE - off % BSIZE) ≤ src.length := Nat.min_le_left ..
          have total : off + min src.length (BSIZE - off % BSIZE) +
              (src.drop (min src.length (BSIZE - off % BSIZE))).length = off + src.length := by
            rw [List.length_drop]
            omega
          have logs : (ops.absorbs p (before ++ bs)).absorb p (e.ref view (off / BSIZE)) =
              ops.absorbs p (before ++ (bs ++ [e.ref view (off / BSIZE)])) := by
            rw [← List.append_assoc, Logging.Ops.absorbs_concat]
          have edit := grown.overwrite ordered live (show off / BSIZE < _ by omega) rfl
            (show off % BSIZE + (src.take (min src.length (BSIZE - off % BSIZE))).length ≤ BSIZE by
              rw [List.length_take, Nat.min_eq_left within]
              exact chunk_inside)
          rw [← mine] at space room
          dsimp only
          apply overwrite_ends
          · exact quiet _
          · exact full_of_absorbs (full some) (extended.room_first laid some room)
          · have whole : ∀ e' owns' view' more, Written sb touch (s.inum ip) _ _ _ _ _
                (off + min src.length (BSIZE - off % BSIZE)) _ e' owns' view' more →
                  post (off + src.length) _ := fun e' owns' view' more written =>
              holds _ _ _ _ (Written.cons ordered live laid bound some rfl extended written)
            apply ih
            · intro more
              exact full some
            · exact quiet
            · exact edit.owned
            · change Function.update d (s.inum ip) _ (s.inum ip) = Function.update s.inode ip _ ip
              rw [Function.update_self, Function.update_self]
            · refine ⟨live.1, ?_⟩
              rw [Function.update_self, fields]
              exact live.2
            · exact logs
            · rw [Function.update_self]
              apply chunk_le.trans
              exact Nat.mul_le_mul_right _ (Nat.le_max_right ..)
            · rw [total]
              exact fits
            · rw [List.length_drop]
              have next := spanned_next off some
              omega
            · rw [total, Function.update_self]
              intro more
              exact touches (by omega)
            · simp only [total, Function.update_self]
              intro _ short
              apply space some
              have used := edit.space
              have all := extended.total
              have split : newBlocks (d (s.inum ip)) (count (s.inum ip))
                  (blocks (off + src.length)) =
                    newBlocks (d (s.inum ip)) (count (s.inum ip)) (off / BSIZE + 1) +
                      newBlocks e (max (count (s.inum ip)) (off / BSIZE + 1))
                        (blocks (off + src.length)) :=
                newBlocks_split below laid.indirects all
              omega
            · rw [total]
              simp only [Function.update_self, List.length_drop]
              exact extended.room_rest laid some room
            · intro e' owns' view' more written
              have state := whole _ _ _ _ written
              rw [total]
              simp only [Function.update_idem]
              rw [List.append_assoc before]
              exact state

end PiKernel.Fs
