import PiKernel.Fs.Refs
import PiKernel.Mkfs.Program

/-!
# The image while `mkfs` builds it

Every inode has its blocks, which hold its contents, between the meta blocks and the
first free block.  What `mkfs` does changes one inode at a time, so `Inv.step` is the
only place where the others are looked at.
-/

namespace PiKernel.Mkfs

open PiKernel.Bytes
open PiKernel.Fs

/-! ## One file -/

/-- What `count` blocks of a file cost, with the indirect block. -/
def cost (count : Nat) : Nat := count + if NDIRECT < count then 1 else 0

/-- An inode with its contents; the last block is filled up with zeros. -/
structure Stored (d : Dinode) (view : Nat → Block) (region : Set Nat) (count : Nat)
    (bytes : List UInt8) : Prop where
  laid : Laid d view region count
  direct : count ≤ NDIRECT → d.addr NDIRECT = 0
  content : ∀ k, k < count * BSIZE → d.byte view k = bytes.getD k 0
  enough : bytes.length ≤ count * BSIZE

namespace Stored

variable {d e : Dinode} {view view' : Nat → Block} {region : Set Nat} {count : Nat}
  {bytes : List UInt8}

/-- A file depends on its own blocks only. -/
theorem congr (stored : Stored d view region count bytes)
    (same : ∀ b, b ∈ region → view' b = view b) : Stored d view' region count bytes := by
  constructor
  · exact stored.laid.congr same
  · exact stored.direct
  · intro k inside
    have block : k / BSIZE < count := Nat.div_lt_of_lt_mul (by rwa [Nat.mul_comm])
    rw [stored.laid.byte_congr same block, stored.content k inside]
  · exact stored.enough

theorem of_addrs (stored : Stored d view region count bytes) (same : e.addrs = d.addrs) :
    Stored e view region count bytes := by
  constructor
  · exact stored.laid.of_addrs same
  · rw [Dinode.addr_of_addrs same]
    exact stored.direct
  · rw [Dinode.byte_of_addrs same]
    exact stored.content
  · exact stored.enough

theorem empty {type : UInt16} : Stored (Dinode.fresh type) view ∅ 0 [] := by
  constructor
  · exact Laid.empty
  · intro _
    exact Dinode.addr_fresh type NDIRECT
  · intro k inside
    exact absurd inside (by omega)
  · exact le_refl _

end Stored

/-! ## All files -/

/-- What the image is meant to hold. -/
structure Ghost where
  node : Nat → Dinode
  bytes : Nat → List UInt8
  region : Nat → Set Nat
  count : Nat → Nat

/-- Another inode in the place of one. -/
def Ghost.set (g : Ghost) (inum : Nat) (d : Dinode) (bytes : List UInt8) (region : Set Nat)
    (count : Nat) : Ghost where
  node := Function.update g.node inum d
  bytes := Function.update g.bytes inum bytes
  region := Function.update g.region inum region
  count := Function.update g.count inum count

/-- The inode on disk. -/
def Image.dinode (s : Image) (inum : Nat) : Dinode :=
  Dinode.read (s.view (sb.IBLOCK inum)) (inum % IPB)

/-- The inode has been handed out. -/
def Image.Allocated (s : Image) (inum : Nat) : Prop := 1 ≤ inum ∧ inum < s.freeinode

/-- The image holds what it is meant to; `writing` is an inode that is not yet on disk. -/
structure Inv (s : Image) (g : Ghost) (writing : Nat) : Prop where
  length : s.length = FSSIZE
  low : nmeta ≤ s.freeblock
  high : s.freeblock ≤ FSSIZE
  zero : ∀ b, s.freeblock ≤ b → s.view b = zeroBlock
  super : s.view 1 = sbBlock
  few : s.freeinode ≤ ninodeblocks * IPB
  stored : ∀ inum, s.Allocated inum →
    Stored (g.node inum) s.view (g.region inum) (g.count inum) (g.bytes inum)
  inside : ∀ inum, s.Allocated inum → ∀ b, b ∈ g.region inum → nmeta ≤ b ∧ b < s.freeblock
  apart : ∀ inum inum' b, s.Allocated inum → s.Allocated inum' → b ∈ g.region inum →
    b ∈ g.region inum' → inum' = inum
  type : ∀ inum, s.Allocated inum →
    (g.node inum).type = if inum = ROOTINO then T_DIR else T_FILE
  synced : ∀ inum, s.Allocated inum → inum ≠ writing →
    s.dinode inum = g.node inum ∧ (g.node inum).size.toNat = (g.bytes inum).length ∧
      g.count inum = blocks (g.bytes inum).length

/-! ## Sectors -/

variable {s s' : Image} {g : Ghost} {w inum a b sec : Nat} {data : Block} {d : Dinode}
  {region : Set Nat} {count : Nat} {bytes : List UInt8}

theorem sector_eq (low : sec < 2 ^ 23) : Image.sector sec = sec := by
  simp only [Image.sector, BSIZE]
  omega

theorem Inv.rsect (inv : Inv s g w) (low : sec < 2 ^ 23) :
    s.rsect sec = if sec < FSSIZE then some (s.view sec) else none := by
  rw [Image.rsect, sector_eq low, inv.length]

/-- The blocks of inodes. -/
theorem Inv.IBLOCK (inv : Inv s g w) (allocated : s.Allocated inum) :
    sb.IBLOCK inum < nmeta ∧ sb.inodestart ≤ sb.IBLOCK inum ∧
      sb.IBLOCK inum < sb.bmapstart := by
  have few := inv.few
  have below := allocated.2
  simp only [Superblock.IBLOCK, sb, nmeta, ninodeblocks, nbitmap, nlog, LOGSIZE, MAXOPBLOCKS,
    NINODES, IPB, FSSIZE, BSIZE] at few ⊢
  omega

theorem Inv.rinode (inv : Inv s g w) (allocated : s.Allocated inum) :
    s.rinode inum = some (s.dinode inum) := by
  have place := inv.IBLOCK allocated
  have bound : nmeta < FSSIZE := by decide
  have size : FSSIZE < 2 ^ 23 := by decide
  rw [Image.rinode, inv.rsect (by omega), if_pos (by omega)]
  rfl

/-! ## One inode changes -/

theorem Inv.writes (inv : Inv s g 0) (inum : Nat) : Inv s g inum :=
  { inv with synced := fun other allocated _ => inv.synced other allocated (by
      rintro rfl
      exact absurd allocated.1 (by decide)) }

/-- The inode that is written gets other blocks, and other contents. -/
theorem Inv.step (inv : Inv s g inum) (allocated : s.Allocated inum)
    (length : s'.length = s.length) (freeinode : s'.freeinode = s.freeinode)
    (high : s'.freeblock ≤ FSSIZE)
    (stored : Stored d s'.view region count bytes) (type : d.type = (g.node inum).type)
    (region_old : ∀ b, b ∈ g.region inum → b ∈ region)
    (region_new : ∀ b, b ∈ region → b ∈ g.region inum ∨ s.freeblock ≤ b ∧ b < s'.freeblock)
    (same : ∀ b, b ∉ region → s'.view b = s.view b)
    (more : s.freeblock ≤ s'.freeblock) :
    Inv s' (g.set inum d bytes region count) inum := by
  have low := inv.low
  have within : ∀ b, b ∈ region → nmeta ≤ b ∧ b < s'.freeblock := by
    intro b member
    rcases region_new b member with old | new
    · have bounds := inv.inside inum allocated b old
      exact ⟨bounds.1, lt_of_lt_of_le bounds.2 more⟩
    · exact ⟨low.trans new.1, new.2⟩
  have other : ∀ j, s.Allocated j → j ≠ inum → ∀ b, b ∈ g.region j → b ∉ region := by
    intro j allocated' differs b member member'
    rcases region_new b member' with old | new
    · exact differs (inv.apart inum j b allocated allocated' old member)
    · have bounds := inv.inside j allocated' b member
      omega
  have back : ∀ j, s'.Allocated j → s.Allocated j := by
    intro j allocated'
    rw [Image.Allocated, freeinode] at allocated'
    exact allocated'
  constructor
  · rw [length, inv.length]
  · exact low.trans more
  · exact high
  · intro b free
    rw [same b fun member => by
      have := within b member
      omega]
    exact inv.zero b (more.trans free)
  · rw [same 1 fun member => absurd (within 1 member).1 (by decide)]
    exact inv.super
  · rw [freeinode]
    exact inv.few
  · intro j allocated'
    by_cases here : j = inum
    · subst here
      simp only [Ghost.set, Function.update_self]
      exact stored
    · simp only [Ghost.set, Function.update_of_ne here]
      apply (inv.stored j (back j allocated')).congr
      intro b member
      exact same b (other j (back j allocated') here b member)
  · intro j allocated' b member
    by_cases here : j = inum
    · subst here
      simp only [Ghost.set, Function.update_self] at member
      exact within b member
    · simp only [Ghost.set, Function.update_of_ne here] at member
      have bounds := inv.inside j (back j allocated') b member
      exact ⟨bounds.1, lt_of_lt_of_le bounds.2 more⟩
  · intro j k b allocated' allocated'' member member'
    by_cases here : j = inum
    · by_cases here' : k = inum
      · rw [here, here']
      · subst here
        simp only [Ghost.set, Function.update_self] at member
        simp only [Ghost.set, Function.update_of_ne here'] at member'
        exact absurd member (other k (back k allocated'') here' b member')
    · by_cases here' : k = inum
      · subst here'
        simp only [Ghost.set, Function.update_self] at member'
        simp only [Ghost.set, Function.update_of_ne here] at member
        exact absurd member' (other j (back j allocated') here b member)
      · simp only [Ghost.set, Function.update_of_ne here] at member
        simp only [Ghost.set, Function.update_of_ne here'] at member'
        exact inv.apart j k b (back j allocated') (back k allocated'') member member'
  · intro j allocated'
    by_cases here : j = inum
    · subst here
      simp only [Ghost.set, Function.update_self, type]
      exact inv.type j allocated
    · simp only [Ghost.set, Function.update_of_ne here]
      exact inv.type j (back j allocated')
  · intro j allocated' here
    simp only [Ghost.set, Function.update_of_ne here]
    have place := (inv.IBLOCK (back j allocated')).1
    rw [Image.dinode, same _ fun member => by
      have := within _ member
      omega]
    exact inv.synced j (back j allocated') here

end PiKernel.Mkfs
