import Mathlib
import Xv6Ext2.Ext2.Balloc

/-! The block groups of the ext2 format: which block a bitmap bit stands for and where the metadata
of a group lies. `ext2_balloc` counts from the bitmap's own block instead of the group's first block,
so it hands out free blocks exactly in the groups that begin with their block bitmap. -/
namespace Xv6Ext2.Ext2
open Lib Bio Function

namespace Superblock

def groupStart (exs : Superblock) (g : Nat) : Nat := exs.firstDataBlock.toNat + g * exs.blocksPerGroup.toNat

def groups (exs : Superblock) : Nat :=
  (exs.blocksCount.toNat - exs.firstDataBlock.toNat + exs.blocksPerGroup.toNat - 1) / exs.blocksPerGroup.toNat

/-- Groups with a copy of the superblock and of the descriptors: all, or with the sparse-superblock
feature those numbered 0, 1 and the powers of 3, 5 and 7. -/
def HoldsSuper (exs : Superblock) (g : Nat) : Prop :=
  exs.featureRoCompat.toNat.testBit 0 = false ∨ g = 0 ∨ g = 1 ∨ ∃ k, g = 3 ^ k ∨ g = 5 ^ k ∨ g = 7 ^ k

end Superblock

inductive Area where
  | super (g : Nat)
  | desc (g k : Nat)
  | blockBitmap (g : Nat)
  | inodeBitmap (g : Nat)
  | inodeTable (g k : Nat)
  deriving DecidableEq

/-- Descriptors are in the blocks after the first superblock, 64 to a block. -/
def formatDesc (exs : Superblock) (disk : Blockno → Block) (g : Nat) : GroupDesc :=
  groupDesc (disk (UInt32.ofNat (exs.groupStart 0 + 1 + g / 64))).byte (32 * (g % 64))

namespace Area

def Valid (exs : Superblock) : Area → Prop
  | super g => g < exs.groups ∧ exs.HoldsSuper g
  | desc g k => g < exs.groups ∧ exs.HoldsSuper g ∧ k < (exs.groups + 63) / 64
  | blockBitmap g => g < exs.groups
  | inodeBitmap g => g < exs.groups
  | inodeTable g k =>
    g < exs.groups ∧ k < (exs.inodesPerGroup.toNat * exs.inodeSize.toNat + bsize - 1) / bsize

def block (exs : Superblock) (disk : Blockno → Block) : Area → Nat
  | super g => exs.groupStart g
  | desc g k => exs.groupStart g + 1 + k
  | blockBitmap g => (formatDesc exs disk g).blockBitmap.toNat
  | inodeBitmap g => (formatDesc exs disk g).inodeBitmap.toNat
  | inodeTable g k => (formatDesc exs disk g).inodeTable.toNat + k

end Area

/-- Block `b` is marked used: bit `i` of the bitmap of group `g` is for block `groupStart g + i`. -/
def marked (exs : Superblock) (disk : Blockno → Block) (b : Nat) : Bool :=
  bit (disk (formatDesc exs disk ((b - exs.firstDataBlock.toNat) / exs.blocksPerGroup.toNat)).blockBitmap).byte
    ((b - exs.firstDataBlock.toNat) % exs.blocksPerGroup.toNat)

structure ValidImage (exs : Superblock) (disk : Blockno → Block) : Prop where
  superblock : exs = superblock (fun i => (disk 0).byte (1024 + i))
  blockSize : exs.logBlockSize = 1
  firstDataBlock : exs.firstDataBlock = 0
  blocksPerGroup_pos : 0 < exs.blocksPerGroup.toNat
  blocksPerGroup_le : exs.blocksPerGroup.toNat ≤ 8 * bsize
  apart : ∀ a a' : Area, a.Valid exs → a'.Valid exs → a.block exs disk = a'.block exs disk → a = a'
  inside : ∀ a : Area, a.Valid exs → a.block exs disk < exs.blocksCount.toNat
  used : ∀ a : Area, a.Valid exs → marked exs disk (a.block exs disk) = true
  /-- Bits behind the last block of a group are set. -/
  padded : ∀ g < exs.groups, ∀ i < 8 * bsize,
    exs.blocksPerGroup.toNat ≤ i ∨ exs.blocksCount.toNat ≤ exs.groupStart g + i →
      bit (disk (formatDesc exs disk g).blockBitmap).byte i = true

/-- Nobody holds a buffer, and the buffers of metadata blocks hold what the disk holds: every function
of the driver that changes one of them writes it before releasing it. -/
structure Coherent (exs : Superblock) (d : Dev) : Prop where
  idle : ∀ b, (obs d).held b = false
  metadata : ∀ a : Area, a.Valid exs →
    (obs d).view (UInt32.ofNat (a.block exs d.disk)) = d.disk (UInt32.ofNat (a.block exs d.disk))

def HasFree (exs : Superblock) (disk : Blockno → Block) (g : Nat) : Prop :=
  ∃ i < exs.blocksPerGroup.toNat, exs.groupStart g + i < exs.blocksCount.toNat ∧
    bit (disk (formatDesc exs disk g).blockBitmap).byte i = false

/-- The call returns a block that was free, is used now, exists, and is no metadata. -/
def AllocatesFree (fs : Mount) (inum : UInt32) (d : Dev) : Prop :=
  ∃ b d', balloc fs inum d = .ok (b,d') ∧ marked fs.exs d.disk b.toNat = false ∧
    marked fs.exs d'.disk b.toNat = true ∧ b.toNat < fs.exs.blocksCount.toNat ∧
    ∀ a : Area, a.Valid fs.exs → a.block fs.exs d.disk ≠ b.toNat

section Image

variable {exs : Superblock} {disk : Blockno → Block}

theorem ValidImage.group_lt (image : ValidImage exs disk) {b : Nat} (inside : b < exs.blocksCount.toNat) :
    (b - exs.firstDataBlock.toNat) / exs.blocksPerGroup.toNat < exs.groups := by
  have positive := image.blocksPerGroup_pos
  have first : exs.firstDataBlock.toNat = 0 := by rw [image.firstDataBlock]; rfl
  rw [Superblock.groups,first,Nat.sub_zero,Nat.sub_zero,Nat.div_lt_iff_lt_mul positive]
  have enough := Nat.lt_div_mul_add positive (a := exs.blocksCount.toNat + exs.blocksPerGroup.toNat - 1)
  omega

theorem desc_valid {g : Nat} (group : g < exs.groups) :
    (Area.desc 0 (g / 64)).Valid exs :=
  ⟨by omega,.inr (.inl rfl),by omega⟩

theorem ofNat_block (image : ValidImage exs disk) {a : Area} (valid : a.Valid exs) :
    (UInt32.ofNat (a.block exs disk)).toNat = a.block exs disk := by
  have bound := image.inside a valid
  have limit := exs.blocksCount.toNat_lt
  rw [UInt32.toNat_ofNat',Nat.mod_eq_of_lt (by omega)]

theorem formatDesc_update (image : ValidImage exs disk) {g h : Nat} {b : Blockno} {bitmap data : Block}
    (group : g < exs.groups) (other : h < exs.groups)
    (plain : ∀ a : Area, a.Valid exs → a.block exs disk ≠ b.toNat) :
    formatDesc exs (update (update disk (formatDesc exs disk g).blockBitmap bitmap) b data) h =
      formatDesc exs disk h := by
  have valid := desc_valid other
  have place : UInt32.ofNat (exs.groupStart 0 + 1 + h / 64) =
      UInt32.ofNat ((Area.desc 0 (h / 64)).block exs disk) := rfl
  have value := ofNat_block image valid
  have first : UInt32.ofNat ((Area.desc 0 (h / 64)).block exs disk) ≠ b := by
    intro same
    exact plain _ valid (by rw [← same,value])
  have second : UInt32.ofNat ((Area.desc 0 (h / 64)).block exs disk) ≠ (formatDesc exs disk g).blockBitmap := by
    intro same
    have areas := image.apart _ (.blockBitmap g) valid group (by rw [← value,same]; rfl)
    contradiction
  rw [formatDesc,place,update_of_ne first,update_of_ne second,← place]
  rfl

theorem marked_block {g i : Nat} (bound : i < exs.blocksPerGroup.toNat) :
    marked exs disk (exs.groupStart g + i) = bit (disk (formatDesc exs disk g).blockBitmap).byte i := by
  have positive : 0 < exs.blocksPerGroup.toNat := by omega
  have index : exs.groupStart g + i - exs.firstDataBlock.toNat = i + g * exs.blocksPerGroup.toNat := by
    rw [Superblock.groupStart]; omega
  rw [marked,index,Nat.add_mul_div_right _ _ positive,Nat.add_mul_mod_self_right,Nat.div_eq_of_lt bound,
    Nat.mod_eq_of_lt bound,Nat.zero_add]

end Image

section Balloc

variable {fs : Mount} {inum : UInt32} {d : Dev}

private theorem desc_format (image : ValidImage fs.exs d.disk) (coherent : Coherent fs.exs d) {g : Nat}
    (group : g < fs.exs.groups) (near : g < 64) : desc (obs d) g = formatDesc fs.exs d.disk g := by
  have first : fs.exs.firstDataBlock.toNat = 0 := by rw [image.firstDataBlock]; rfl
  have here : UInt32.ofNat (fs.exs.groupStart 0 + 1 + g / 64) = 1 := by
    simp [Superblock.groupStart,first,Nat.div_eq_of_lt near]
  have written := coherent.metadata _ (desc_valid group)
  simp only [Area.block,here] at written
  rw [desc,formatDesc,here,written,Nat.mod_eq_of_lt near]

theorem balloc_image (image : ValidImage fs.exs d.disk) (coherent : Coherent fs.exs d)
    (group : groupNo fs inum < fs.exs.groups) :
    Meets (balloc fs inum) d
      (fun r d' => groupNo fs inum < 64 ∧ ∃ z, 0 < z ∧ z < 8 * bsize ∧
        FirstClear (d.disk (formatDesc fs.exs d.disk (groupNo fs inum)).blockBitmap) (scanLimit fs) z ∧
        r = (formatDesc fs.exs d.disk (groupNo fs inum)).blockBitmap + UInt32.ofNat z ∧
        d'.disk = update (update d.disk (formatDesc fs.exs d.disk (groupNo fs inum)).blockBitmap
          ((d.disk (formatDesc fs.exs d.disk (groupNo fs inum)).blockBitmap).setBit z)) r (Bytes.zero bsize))
      (fun _ => 64 ≤ groupNo fs inum ∨
        Full (d.disk (formatDesc fs.exs d.disk (groupNo fs inum)).blockBitmap) (scanLimit fs) ∨
        FirstClear (d.disk (formatDesc fs.exs d.disk (groupNo fs inum)).blockBitmap) (scanLimit fs) 0) := by
  have descWritten := coherent.metadata (.desc 0 0) ⟨by omega,.inr (.inl rfl),by omega⟩
  have first : fs.exs.firstDataBlock.toNat = 0 := by rw [image.firstDataBlock]; rfl
  simp only [Area.block,Superblock.groupStart,first,Nat.zero_mul,Nat.add_zero,Nat.zero_add] at descWritten
  by_cases near : groupNo fs inum < 64
  · have place : bitmapOf fs (obs d) inum = (formatDesc fs.exs d.disk (groupNo fs inum)).blockBitmap := by
      rw [bitmapOf,desc_format image coherent group near]
    have written := coherent.metadata (.blockBitmap (groupNo fs inum)) group
    simp only [Area.block,UInt32.ofNat_toNat] at written
    refine (balloc_meets fs inum d (coherent.idle _) (fun _ => coherent.idle _) (fun _ _ _ _ => coherent.idle _)
      (.inr descWritten) (fun _ => .inr (place ▸ written))).mono ?_ ?_
    · rintro r d' ⟨_,z,o,positive,clear,target,drift,result⟩
      rw [place,written] at clear result
      rw [place] at target
      refine ⟨near,z,positive,clear.inside,clear,target,?_⟩
      have disk := congrArg Obs.disk result
      simp only [Obs.write,drift.disk] at disk
      exact disk
    · intro e stopped
      rw [place,written] at stopped
      exact stopped
  · refine (balloc_meets fs inum d (coherent.idle _) (fun _ => coherent.idle _) (fun _ _ _ _ => coherent.idle _)
      (.inr descWritten) (fun near' => absurd near' near)).mono ?_ ?_
    · rintro r d' ⟨near',_⟩
      exact absurd near' near
    · intro e _
      exact .inl (by omega)

private theorem shift_of_allocates (image : ValidImage fs.exs d.disk) (coherent : Coherent fs.exs d)
    (group : groupNo fs inum < fs.exs.groups) (allocates : AllocatesFree fs inum d) :
    groupNo fs inum < 64 ∧
      (formatDesc fs.exs d.disk (groupNo fs inum)).blockBitmap.toNat = fs.exs.groupStart (groupNo fs inum) := by
  obtain ⟨r,d',ran,free,used,inside,plain⟩ := allocates
  obtain ⟨near,z,positive,bound,clear,target,disk⟩ := (balloc_image image coherent group).result ran
  refine ⟨near,?_⟩
  have other := image.group_lt inside
  -- the only bit that goes from clear to set is bit `z` of the group's own bitmap
  rw [marked] at free
  rw [marked,disk,formatDesc_update image group other plain] at used
  generalize home : (r.toNat - fs.exs.firstDataBlock.toNat) / fs.exs.blocksPerGroup.toNat = h at free used other
  have apart : (formatDesc fs.exs d.disk h).blockBitmap ≠ r := by
    intro same
    exact plain (.blockBitmap h) other (by rw [← same]; rfl)
  rw [update_of_ne apart] at used
  by_cases own : h = groupNo fs inum
  · subst own
    rw [update_self,bit_setBit _ _ _ bound,free,Bool.or_false,decide_eq_true_eq] at used
    have first : fs.exs.firstDataBlock.toNat = 0 := by rw [image.firstDataBlock]; rfl
    have split := Nat.div_add_mod' (r.toNat - fs.exs.firstDataBlock.toNat) fs.exs.blocksPerGroup.toNat
    rw [home,used,first,Nat.sub_zero] at split
    have value := congrArg UInt32.toNat target
    simp only [bsize] at bound
    rw [UInt32.toNat_add,UInt32.toNat_ofNat',Nat.mod_eq_of_lt (show z < 2 ^ 32 by omega)] at value
    have limit := (formatDesc fs.exs d.disk (groupNo fs inum)).blockBitmap.toNat_lt
    rw [Superblock.groupStart,first]
    omega
  · have bitmaps : (formatDesc fs.exs d.disk h).blockBitmap ≠
        (formatDesc fs.exs d.disk (groupNo fs inum)).blockBitmap := by
      intro same
      have areas := image.apart (.blockBitmap h) (.blockBitmap (groupNo fs inum)) other group
        (congrArg UInt32.toNat same)
      exact own (Area.blockBitmap.inj areas)
    rw [update_of_ne bitmaps,free] at used
    contradiction

private theorem scan_reaches (image : ValidImage fs.exs d.disk) {i : Nat}
    (bound : i < fs.exs.blocksPerGroup.toNat) : i < scanLimit fs := by
  have limit := image.blocksPerGroup_le
  simp only [bsize] at limit
  rw [scanLimit,UInt32.toNat_mul]
  have eight : (8 : UInt32).toNat = 8 := rfl
  rw [eight,Nat.mod_eq_of_lt (by omega)]
  omega

private theorem allocates_of_shift (image : ValidImage fs.exs d.disk) (coherent : Coherent fs.exs d)
    (group : groupNo fs inum < fs.exs.groups) (room : HasFree fs.exs d.disk (groupNo fs inum))
    (near : groupNo fs inum < 64)
    (begins : (formatDesc fs.exs d.disk (groupNo fs inum)).blockBitmap.toNat =
      fs.exs.groupStart (groupNo fs inum)) : AllocatesFree fs inum d := by
  obtain ⟨i,bound,exists_,clear⟩ := room
  obtain ⟨r,d',ran,_,z,positive,inside,first,target,disk⟩ := (balloc_image image coherent group).returns (by
    rintro e (far | full | first)
    · omega
    · have limit := image.blocksPerGroup_le
      have used := full i (scan_reaches image bound) (by omega)
      rw [clear] at used
      contradiction
    · have used := image.used (.blockBitmap (groupNo fs inum)) group
      have here : (Area.blockBitmap (groupNo fs inum)).block fs.exs d.disk =
          fs.exs.groupStart (groupNo fs inum) + 0 := begins
      rw [here,marked_block image.blocksPerGroup_pos,first.clear] at used
      contradiction)
  have le := first.le clear
  have small : z < fs.exs.blocksPerGroup.toNat := by omega
  have value : r.toNat = fs.exs.groupStart (groupNo fs inum) + z := by
    have limit := fs.exs.blocksCount.toNat_lt
    simp only [bsize] at inside
    rw [target,UInt32.toNat_add,UInt32.toNat_ofNat',Nat.mod_eq_of_lt (show z < 2 ^ 32 by omega),begins,
      Nat.mod_eq_of_lt (by omega)]
  have free : marked fs.exs d.disk r.toNat = false := by
    rw [value,marked_block small]
    exact first.clear
  have plain (a : Area) (valid : a.Valid fs.exs) : a.block fs.exs d.disk ≠ r.toNat := by
    intro same
    have used := image.used a valid
    rw [same,free] at used
    contradiction
  refine ⟨r,d',ran,free,?_,by omega,plain⟩
  have apart : (formatDesc fs.exs d.disk (groupNo fs inum)).blockBitmap ≠ r := by
    intro same
    exact plain (.blockBitmap (groupNo fs inum)) group (by rw [← same]; rfl)
  rw [value,marked_block small,disk,formatDesc_update image group group plain,update_of_ne apart,
    update_self,bit_setBit _ _ _ inside]
  simp

/-- `ext2_balloc` hands out a free block exactly in the groups that begin with their block bitmap and
whose descriptor is in block 1. -/
theorem balloc_allocates_free_iff (fs : Mount) (inum : UInt32) (d : Dev)
    (image : ValidImage fs.exs d.disk) (coherent : Coherent fs.exs d)
    (group : groupNo fs inum < fs.exs.groups) (room : HasFree fs.exs d.disk (groupNo fs inum)) :
    AllocatesFree fs inum d ↔ groupNo fs inum < 64 ∧
      (formatDesc fs.exs d.disk (groupNo fs inum)).blockBitmap.toNat = fs.exs.groupStart (groupNo fs inum) :=
  ⟨shift_of_allocates image coherent group,
    fun both => allocates_of_shift image coherent group room both.1 both.2⟩

end Balloc

/-- Three groups of eight blocks with the sparse-superblock feature: the last group has no copy of
the superblock and begins with its bitmap. In the first group block 5 is free and blocks 6 and 7
belong to a file. -/
def populated : Blockno → Block := fun b =>
  let bitmap (first : UInt8) : Block := fun i => if i.val = 0 then first else 255
  if b = 0 then
    ((((Bytes.zero bsize).setU32 1028 24).setU32 1048 1).setU32 1056 8).setU32 1064 16
      |>.setU32 1112 128 |>.setU32 1124 1
  else if b = 1 then
    ((((Bytes.zero bsize).setU32 0 2).setU32 4 3).setU32 8 4).setU32 32 10
      |>.setU32 36 11 |>.setU32 40 12 |>.setU32 64 16 |>.setU32 68 17 |>.setU32 72 18
  else if b = 2 then bitmap 0xdf
  else if b = 10 then bitmap 0x1f
  else if b = 16 then bitmap 0x07
  else Bytes.zero bsize

def populatedMount : Mount where
  exs := ⟨24,0,1,8,16,128,1⟩
  recycle _ _ := true
  devRead _ := none
  devWrite _ := none
  inodesPerGroup_pos := by decide
  inodeSize_ge := by decide
  inodeSize_le := by decide

private def populatedAreas : List Area :=
  [.super 0,.super 1,.desc 0 0,.desc 1 0] ++
    (List.range 3).flatMap fun g => [.blockBitmap g,.inodeBitmap g,.inodeTable g 0]

private theorem populated_areas (a : Area) (valid : a.Valid populatedMount.exs) : a ∈ populatedAreas := by
  have groups : populatedMount.exs.groups = 3 := by decide
  have inodes : (populatedMount.exs.inodesPerGroup.toNat * populatedMount.exs.inodeSize.toNat + bsize - 1) /
      bsize = 1 := by decide
  have copies (g : Nat) (bound : g < 3) (holds : populatedMount.exs.HoldsSuper g) : g < 2 := by
    by_contra last
    obtain rfl : g = 2 := by omega
    rcases holds with plain | zero | one | ⟨k,power⟩
    · exact absurd plain (by decide)
    · omega
    · omega
    · cases k with
      | zero => omega
      | succ k => omega
  cases a with
  | super g =>
    rw [Area.Valid,groups] at valid
    have low := copies g valid.1 valid.2
    interval_cases g <;> decide
  | desc g k =>
    rw [Area.Valid,groups] at valid
    have low := copies g valid.1 valid.2.1
    obtain rfl : k = 0 := by omega
    interval_cases g <;> decide
  | blockBitmap g =>
    rw [Area.Valid,groups] at valid
    interval_cases g <;> decide
  | inodeBitmap g =>
    rw [Area.Valid,groups] at valid
    interval_cases g <;> decide
  | inodeTable g k =>
    rw [Area.Valid,groups,inodes] at valid
    obtain ⟨low,only⟩ := valid
    obtain rfl : k = 0 := by omega
    interval_cases g <;> decide

private theorem populated_padding (first : UInt8) (i : Nat) (bound : i < 8 * bsize) (behind : 8 ≤ i) :
    bit (Bytes.byte (fun j : Fin bsize => if j.val = 0 then first else 255)) i = true := by
  have inside : i / 8 < bsize := by omega
  have later : i / 8 ≠ 0 := by omega
  have low : i % 8 < 8 := Nat.mod_lt _ (by decide)
  simp only [bit,Bytes.byte,inside,dif_pos,later,if_false]
  interval_cases i % 8 <;> rfl

theorem populated_valid : ValidImage populatedMount.exs populated := by
  have areas : ∀ a ∈ populatedAreas, (∀ a' ∈ populatedAreas,
      a.block populatedMount.exs populated = a'.block populatedMount.exs populated → a = a') ∧
      a.block populatedMount.exs populated < 24 ∧
      marked populatedMount.exs populated (a.block populatedMount.exs populated) = true := by decide +kernel
  refine ⟨by decide +kernel,rfl,rfl,by decide,by decide,?_,?_,?_,?_⟩
  · intro a a' valid valid' same
    exact (areas a (populated_areas a valid)).1 a' (populated_areas a' valid') same
  · intro a valid
    exact (areas a (populated_areas a valid)).2.1
  · intro a valid
    exact (areas a (populated_areas a valid)).2.2
  · intro g group i bound outside
    have groups : populatedMount.exs.groups = 3 := by decide
    have start : populatedMount.exs.groupStart g = 0 + g * 8 := rfl
    have blocks : populatedMount.exs.blocksCount.toNat = 24 := rfl
    have size : populatedMount.exs.blocksPerGroup.toNat = 8 := rfl
    rw [groups] at group
    rw [start,blocks,size] at outside
    have behind : 8 ≤ i := by omega
    have bitmaps : (formatDesc populatedMount.exs populated 0).blockBitmap = 2 ∧
        (formatDesc populatedMount.exs populated 1).blockBitmap = 10 ∧
        (formatDesc populatedMount.exs populated 2).blockBitmap = 16 := by decide +kernel
    interval_cases g
    · rw [bitmaps.1]; exact populated_padding 0xdf i bound behind
    · rw [bitmaps.2.1]; exact populated_padding 0x1f i bound behind
    · rw [bitmaps.2.2]; exact populated_padding 0x07 i bound behind

theorem populated_coherent : Coherent populatedMount.exs (cold populated) := ⟨fun _ => rfl,fun _ _ => rfl⟩

theorem balloc_allocates_free_in_last_group : AllocatesFree populatedMount 33 (cold populated) :=
  (balloc_allocates_free_iff populatedMount 33 (cold populated) populated_valid populated_coherent (by decide)
    ⟨3,by decide,by decide,by decide +kernel⟩).mpr ⟨by decide,by decide +kernel⟩

/-- In the first group the clear bit is that of block 5, and the call zeroes and returns block 7. -/
theorem balloc_hands_out_used_block :
    ValidImage populatedMount.exs populated ∧ Coherent populatedMount.exs (cold populated) ∧
      HasFree populatedMount.exs populated (groupNo populatedMount 1) ∧
      ¬AllocatesFree populatedMount 1 (cold populated) := by
  refine ⟨populated_valid,populated_coherent,⟨5,by decide,by decide,by decide +kernel⟩,?_⟩
  rintro ⟨b,d',ran,free,-⟩
  have returned : (balloc populatedMount 1 (cold populated)).toOption.map Prod.fst = some 7 := by decide +kernel
  rw [ran] at returned
  obtain rfl : b = 7 := Option.some.inj returned
  have used : marked populatedMount.exs populated 7 = true := by decide +kernel
  exact absurd (used.symm.trans free) (by decide)

end Xv6Ext2.Ext2
