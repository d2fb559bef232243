import Xv6Ext2.Ext2.BlockTree
import Xv6Ext2.Ext2.Bfree
import Xv6Ext2.Ext2.File

/-! `ext2_itrunc`, and when it gives back the blocks of an inode. The single-indirect branch reads the pointer block
it holds; the double-indirect branch holds two and reads the wrong one; the triple-indirect branch begins with the
double-indirect pointer, which is zero by then. -/
namespace Xv6Ext2.Ext2
open Lib Bio Function

/-- `a[j]` in the data of a held buffer. -/
def entryOf (b : Blockno) (j : Fin 512) : K Blockno := do
  let a ← bdata b
  return word a j

/-- `a[j] = 0` in the data of a held buffer, which is not written. -/
def zeroEntry (b : Blockno) (j : Fin 512) : K Unit := do
  let a ← bdata b
  bset b (a.setU32 (4 * j) 0)

/-- The values of a loop variable below `BSIZE / sizeof(uint)`. -/
@[irreducible] def indexes : List (Fin 512) := List.finRange 512

def freeEntry (fs : Mount) (b : Blockno) (j : Fin 512) : K Unit := do
  let addr ← entryOf b j
  if addr ≠ 0 then
    bfree fs addr
    zeroEntry b j
  else pure ()

def freeDirect (fs : Mount) (ip : Inode) (i : Fin 15) : K Inode := do
  if ip.addrs i ≠ 0 then
    bfree fs (ip.addrs i)
    return {ip with addrs := update ip.addrs i 0}
  else return ip

def truncSingle (fs : Mount) (ip : Inode) : K Inode := do
  if ip.addrs 12 ≠ 0 then
    bread fs.recycle (ip.addrs 12)
    indexes.forM (freeEntry fs (ip.addrs 12))
    brelse (ip.addrs 12)
    bfree fs (ip.addrs 12)
    return {ip with addrs := update ip.addrs 12 0}
  else return ip

def doubleEntry (fs : Mount) (root : Blockno) (j : Fin 512) : K Unit := do
  let addr ← entryOf root j
  if addr ≠ 0 then
    bread fs.recycle addr
    -- `b = (uint *)bp->data` and not `bp1->data`
    indexes.forM (freeEntry fs root)
    brelse addr
    let again ← entryOf root j
    bfree fs again
    zeroEntry root j
  else pure ()

def truncDouble (fs : Mount) (ip : Inode) : K Inode := do
  if ip.addrs 13 ≠ 0 then
    bread fs.recycle (ip.addrs 13)
    indexes.forM (doubleEntry fs (ip.addrs 13))
    brelse (ip.addrs 13)
    bfree fs (ip.addrs 13)
    return {ip with addrs := update ip.addrs 13 0}
  else return ip

/-- One round of the middle loop of the triple-indirect branch, with `a[j]` read as `addr` and held. -/
def tripleInner (fs : Mount) (root : Blockno) (j : Fin 512) (addr : Blockno) (i : Fin 512) : K Unit := do
  let next ← entryOf addr i
  if next ≠ 0 then
    -- `bp2 = bread(ip->dev, a[j])` and not `b[i]`
    let again ← entryOf root j
    bread fs.recycle again
    indexes.forM (freeEntry fs again)
    brelse again
    let next ← entryOf addr i
    bfree fs next
    zeroEntry addr i
  else pure ()

def tripleEntry (fs : Mount) (root : Blockno) (j : Fin 512) : K Unit := do
  let addr ← entryOf root j
  if addr ≠ 0 then
    bread fs.recycle addr
    indexes.forM (tripleInner fs root j addr)
    brelse addr
    let again ← entryOf root j
    bfree fs again
    zeroEntry root j
  else pure ()

def truncTriple (fs : Mount) (ip : Inode) : K Inode := do
  if ip.addrs 14 ≠ 0 then
    -- `addrs->addrs[EXT2_DIND_BLOCK]`, here and below
    bread fs.recycle (ip.addrs 13)
    indexes.forM (tripleEntry fs (ip.addrs 13))
    brelse (ip.addrs 13)
    bfree fs (ip.addrs 13)
    let ip := {ip with addrs := update ip.addrs 14 0, size := 0}
    iupdate fs ip
    return ip
  else return ip

def directs : List (Fin 15) := [0,1,2,3,4,5,6,7,8,9,10,11]

def itrunc (fs : Mount) (ip : Inode) : K Inode := do
  let ip ← directs.foldlM (freeDirect fs) ip
  let ip ← truncSingle fs ip
  let ip ← truncDouble fs ip
  truncTriple fs ip

/-- The bit that stands for block `b` in the bitmap of group 0, as `ext2_balloc` counts. -/
def bitFor (o : Obs) (b : Blockno) : Nat := (b - bitmapAt o 0).toNat

/-- Group 0 holds its bitmap. Nobody holds a buffer, the buffers of the descriptors and of the bitmap hold what the
disk holds, and recycling a buffer loses nothing. -/
structure Ground (fs : Mount) (o : Obs) : Prop where
  behind : bitmapAt o 0 ≠ 0 ∧ bitmapAt o 0 ≠ 1
  bitmap : (bitmapAt o 0).toNat < fs.exs.blocksPerGroup.toNat
  geometry : fs.exs.blocksPerGroup.toNat ≤ 8 * bsize
  idle : ∀ b, o.held b = false
  desc : o.view 1 = o.disk 1
  synced : o.view (bitmapAt o 0) = o.disk (bitmapAt o 0)
  stable : ∀ b, Careful fs.recycle ∨ o.view b = o.disk b

/-- The pointers of an inode form a tree of distinct allocated blocks of group 0, none of which holds the descriptors or
the bitmap. -/
structure Tree (fs : Mount) (ip : Inode) (o : Obs) : Prop where
  distinct : Slot.Distinct ext2Depth (ptr ip o)
  group : ∀ σ : Place, σ.Within ext2Depth → ptr ip o σ ≠ 0 → (ptr ip o σ).toNat < fs.exs.blocksPerGroup.toNat
  marked : ∀ σ : Place, σ.Within ext2Depth → ptr ip o σ ≠ 0 → bit (o.view (bitmapAt o 0)).byte (bitFor o (ptr ip o σ)) = true
  plain : ∀ σ : Place, σ.Within ext2Depth → ptr ip o σ ≠ 0 → ptr ip o σ ≠ 1 ∧ ptr ip o σ ≠ bitmapAt o 0

/-- `ext2_itrunc` returns with all pointers zero. The bits of the blocks of the tree are clear, the others are as before,
and the bitmap is the only block of the disk that is written. A bit cannot have been cleared twice, as
`ext2_bfree` panics at a clear one. -/
def Truncates (fs : Mount) (ip : Inode) (d : Dev) : Prop :=
  ∃ ip' d', itrunc fs ip d = .ok (ip',d') ∧ (∀ i, ip'.addrs i = 0) ∧
    (∀ z, bit ((obs d').view (bitmapAt (obs d) 0)).byte z = true ↔
      bit ((obs d).view (bitmapAt (obs d) 0)).byte z = true ∧
        ∀ σ : Place, σ.Within ext2Depth → ptr ip (obs d) σ ≠ 0 → bitFor (obs d) (ptr ip (obs d) σ) ≠ z) ∧
    (obs d').disk (bitmapAt (obs d) 0) = (obs d').view (bitmapAt (obs d) 0) ∧
    ∀ x, x ≠ bitmapAt (obs d) 0 → (obs d').disk x = (obs d).disk x

/-- The state on the way: the blocks in the slots of `gone` are given back, the buffers in `locks` are held, and only
those in `edited` may have lost their pointers. -/
structure Freed (ip : Inode) (o₀ : Obs) (gone : Set Place) (edited : Set Blockno) (locks : Finset Blockno) (o : Obs) : Prop where
  held : ∀ x, o.held x = true ↔ x ∈ locks
  disk : ∀ x, x ≠ bitmapAt o₀ 0 → o.disk x = o₀.disk x
  view : ∀ x, x ≠ bitmapAt o₀ 0 → x ∉ edited → o.view x = o₀.view x
  synced : o.view (bitmapAt o₀ 0) = o.disk (bitmapAt o₀ 0)
  bits : ∀ z, bit (o.view (bitmapAt o₀ 0)).byte z = true ↔ bit (o₀.view (bitmapAt o₀ 0)).byte z = true ∧
    ∀ σ ∈ gone, ptr ip o₀ σ ≠ 0 → bitFor o₀ (ptr ip o₀ σ) ≠ z

section

variable {fs : Mount} {ip : Inode} {o₀ o o' : Obs} {gone : Set Place} {edited : Set Blockno} {locks : Finset Blockno}
  {d : Dev} {σ : Place} {fail : Fault → Prop}

theorem bitFor_inj {b c : Blockno} : bitFor o₀ b = bitFor o₀ c ↔ b = c := by
  rw [bitFor,bitFor,UInt32.toNat_inj,sub_left_inj]

theorem Ground.freed (ground : Ground fs o₀) : Freed ip o₀ ∅ ∅ ∅ o₀ where
  held x := by simp [ground.idle x]
  disk _ _ := rfl
  view _ _ _ := rfl
  synced := ground.synced
  bits _ := ⟨fun marked => ⟨marked,fun _ none => absurd none (Set.notMem_empty _)⟩,And.left⟩

namespace Freed

theorem drift (freed : Freed ip o₀ gone edited locks o) (ground : Ground fs o₀) (drift : Drift fs.recycle o o') :
    Freed ip o₀ gone edited locks o' ∧ ∀ x ∈ locks, o'.view x = o.view x := by
  have bitmap := drift.view_eq (.inr freed.synced)
  refine ⟨⟨?_,?_,?_,?_,?_⟩,?_⟩
  · intro x
    rw [drift.held]
    exact freed.held x
  · intro x other
    rw [drift.disk]
    exact freed.disk x other
  · intro x other kept
    rw [← freed.view x other kept]
    refine drift.view_eq ((ground.stable x).imp_right fun same => ?_)
    rw [freed.view x other kept,freed.disk x other,same]
  · rw [bitmap,drift.disk]
    exact freed.synced
  · rw [bitmap]
    exact freed.bits
  · intro x member
    rcases drift.view x with same | ⟨free,-⟩
    · exact same
    · rw [(freed.held x).mpr member] at free
      cases free

theorem lock (freed : Freed ip o₀ gone edited locks o) (b : Blockno) : Freed ip o₀ gone edited (insert b locks) (o.lock b) where
  held x := by
    simp only [Obs.lock,update_apply,Finset.mem_insert]
    split_ifs with same
    · simp [same]
    · simp [same,freed.held x]
  disk := freed.disk
  view := freed.view
  synced := freed.synced
  bits := freed.bits

theorem unlock {b : Blockno} (freed : Freed ip o₀ gone edited (insert b locks) o) (new : b ∉ locks) :
    Freed ip o₀ gone edited locks (o.unlock b) where
  held x := by
    simp only [Obs.unlock,update_apply]
    split_ifs with same
    · simp [same,new]
    · rw [freed.held x,Finset.mem_insert,or_iff_right same]
  disk := freed.disk
  view := freed.view
  synced := freed.synced
  bits := freed.bits

theorem set (freed : Freed ip o₀ gone edited locks o) {b : Blockno} (other : b ≠ bitmapAt o₀ 0) (listed : b ∈ edited)
    (data : Block) : Freed ip o₀ gone edited locks (o.set b data) where
  held := freed.held
  disk := freed.disk
  view x apart kept := by
    have same : x ≠ b := fun same => kept (same ▸ listed)
    rw [← freed.view x apart kept]
    exact update_of_ne same _ _
  synced := by
    simp only [Obs.set,update_of_ne other.symm]
    exact freed.synced
  bits z := by
    simp only [Obs.set,update_of_ne other.symm]
    exact freed.bits z

theorem edit (freed : Freed ip o₀ gone edited locks o) (b : Blockno) : Freed ip o₀ gone (insert b edited) locks o :=
  ⟨freed.held,freed.disk,fun x other kept => freed.view x other (fun old => kept (Set.mem_insert_of_mem b old)),
    freed.synced,freed.bits⟩

theorem skips (freed : Freed ip o₀ gone edited locks o) {more : Set Place} (larger : gone ⊆ more)
    (empty : ∀ σ ∈ more, σ ∉ gone → ptr ip o₀ σ = 0) : Freed ip o₀ more edited locks o := by
  refine ⟨freed.held,freed.disk,freed.view,freed.synced,fun z => (freed.bits z).trans (and_congr_right' ⟨fun all ρ member there => ?_,
    fun all ρ member => all ρ (larger member)⟩)⟩
  by_cases old : ρ ∈ gone
  · exact all ρ old there
  · exact absurd (empty ρ member old) there

theorem skip (freed : Freed ip o₀ gone edited locks o) (empty : ptr ip o₀ σ = 0) :
    Freed ip o₀ (insert σ gone) edited locks o := by
  refine freed.skips (Set.subset_insert σ gone) fun ρ member new => ?_
  obtain rfl := (Set.mem_insert_iff.mp member).resolve_right new
  exact empty

theorem give (freed : Freed ip o₀ gone edited locks o) (there : ptr ip o₀ σ ≠ 0) (inside : bitFor o₀ (ptr ip o₀ σ) < 8 * bsize) :
    Freed ip o₀ (insert σ gone) edited locks
      (o.write (bitmapAt o₀ 0) ((o.view (bitmapAt o₀ 0)).clearBit (bitFor o₀ (ptr ip o₀ σ)))) where
  held := freed.held
  disk x other := by
    simp only [Obs.write,update_of_ne other]
    exact freed.disk x other
  view x other kept := by
    simp only [Obs.write,update_of_ne other]
    exact freed.view x other kept
  synced := by simp only [Obs.write,update_self]
  bits z := by
    simp only [Obs.write,update_self]
    rw [bit_clearBit _ _ _ inside,Bool.and_eq_true,Bool.not_eq_true',decide_eq_false_iff_not,freed.bits]
    constructor
    · rintro ⟨other,before,all⟩
      refine ⟨before,fun ρ member there' => ?_⟩
      rcases Set.mem_insert_iff.mp member with rfl | old
      · exact Ne.symm other
      · exact all ρ old there'
    · rintro ⟨before,all⟩
      exact ⟨Ne.symm (all σ (Set.mem_insert σ gone) there),before,fun ρ member => all ρ (Set.mem_insert_of_mem σ member)⟩

theorem marked (freed : Freed ip o₀ gone edited locks o) (tree : Tree fs ip o₀) (within : σ.Within ext2Depth)
    (inside : ∀ ρ ∈ gone, ρ.Within ext2Depth) (new : σ ∉ gone) (there : ptr ip o₀ σ ≠ 0) :
    bit (o.view (bitmapAt o₀ 0)).byte (bitFor o₀ (ptr ip o₀ σ)) = true := by
  refine (freed.bits _).mpr ⟨tree.marked σ within there,fun ρ member _ same => ?_⟩
  have slots := tree.distinct σ ρ within (inside ρ member) there (bitFor_inj.mp same).symm
  exact new (slots ▸ member)

end Freed

theorem Freed.desc (freed : Freed ip o₀ gone edited locks o) (ground : Ground fs o₀) (kept : 1 ∉ edited) :
    o.view 1 = o₀.view 1 ∧ o.view 1 = o.disk 1 := by
  have view := freed.view 1 ground.behind.2.symm kept
  refine ⟨view,?_⟩
  rw [view,ground.desc,freed.disk 1 ground.behind.2.symm]

theorem bfree_zero (ground : Ground fs o₀) (free : (obs d).held 1 = false) (desc : (obs d).view 1 = o₀.view 1)
    (synced : (obs d).view 1 = (obs d).disk 1) : Meets (bfree fs 0) d (fun _ _ => False) (fun _ => True) := by
  refine (bfree_meets fs 0 d free (.inr synced)).mono ?_ (fun _ _ => trivial)
  rintro _ d' ⟨-,-,inside,-⟩
  have bitmap := ground.bitmap
  have geometry := ground.geometry
  have nonzero : 0 < (bitmapAt o₀ 0).toNat := by
    rw [Nat.pos_iff_ne_zero]
    exact fun zero => ground.behind.1 (UInt32.toNat_inj.mp zero)
  have home : homeOf fs 0 = 0 := Nat.zero_div _
  have block : clearedBlock fs (obs d) 0 = bitmapAt o₀ 0 := by
    rw [clearedBlock,home,Ext2.desc,desc]
    rfl
  have index : clearedBit fs (obs d) 0 = 2 ^ 32 - (bitmapAt o₀ 0).toNat := by
    have zero : (0 : UInt32) % fs.exs.blocksPerGroup = 0 := by
      rw [← UInt32.toNat_inj,UInt32.toNat_mod]
      exact Nat.zero_mod _
    rw [clearedBit,block,zero,UInt32.toNat_sub,UInt32.toNat_zero,Nat.add_zero,Nat.mod_eq_of_lt (by omega)]
  rw [index] at inside
  simp only [bsize] at inside geometry
  omega

theorem entryOf_run {b : Blockno} (held : (obs d).held b = true) (j : Fin 512) :
    entryOf b j d = .ok (word ((obs d).view b) j,d) := by
  rw [entryOf,bind_ok (bdata_run held)]
  rfl

theorem zeroEntry_run {b : Blockno} (held : (obs d).held b = true) (j : Fin 512) :
    ∃ d', zeroEntry b j d = .ok ((),d') ∧ obs d' = (obs d).set b (((obs d).view b).setU32 (4 * j) 0) := by
  rw [zeroEntry,bind_ok (bdata_run held)]
  exact bset_run held _

section

variable {α : Type} {f : α → Place} {a : α} {l : List α}

/-- The slots that the members of a list stand for. -/
def slotsOf (f : α → Place) (l : List α) : Set Place := {σ | ∃ a ∈ l, σ = f a}

theorem slotsOf_nil : gone ∪ slotsOf f [] = gone := by simp [slotsOf]

theorem slotsOf_cons : gone ∪ slotsOf f (a :: l) = insert (f a) gone ∪ slotsOf f l := by
  ext σ
  simp only [slotsOf,List.mem_cons,Set.mem_union,Set.mem_insert_iff,Set.mem_ofPred_eq,exists_eq_or_imp]
  tauto

theorem fresh_tail (injective : Injective f) (absent : a ∉ l) (new : ∀ x ∈ a :: l, f x ∉ gone) :
    ∀ x ∈ l, f x ∉ insert (f a) gone := by
  rintro x member (same | old)
  · exact absent (injective same ▸ member)
  · exact new x (List.mem_cons_of_mem a member) old

end

abbrev entrySlots (i : Fin 15) : List (Fin 512) → Set Place := slotsOf fun j => ⟨i,[j]⟩

abbrev rootSlots : List (Fin 15) → Set Place := slotsOf fun i => ⟨i,[]⟩

theorem bread_freed (ground : Ground fs o₀) (freed : Freed ip o₀ gone edited locks (obs d)) {b : Blockno} (new : b ∉ locks) :
    ∃ d', bread fs.recycle b d = .ok ((),d') ∧ Freed ip o₀ gone edited (insert b locks) (obs d') ∧
      ∀ x ∈ locks, (obs d').view x = (obs d).view x := by
  obtain ⟨d',o,ran,drift,locked⟩ := bread_drift (d := d) (b := b) fs.recycle (by
    rw [← Bool.not_eq_true,freed.held b]
    exact new)
  obtain ⟨freed',same⟩ := freed.drift ground drift
  refine ⟨d',ran,?_,fun x member => ?_⟩
  · rw [locked]
    exact freed'.lock b
  · rw [locked]
    exact same x member

theorem brelse_freed {b : Blockno} (freed : Freed ip o₀ gone edited (insert b locks) (obs d)) (new : b ∉ locks) :
    ∃ d', brelse b d = .ok ((),d') ∧ Freed ip o₀ gone edited locks (obs d') ∧ (obs d').view = (obs d).view := by
  obtain ⟨d',ran,released⟩ := brelse_run (d := d) (b := b) ((freed.held b).mpr (Finset.mem_insert_self b locks))
  refine ⟨d',ran,?_,by rw [released]; rfl⟩
  rw [released]
  exact freed.unlock new

theorem indexes_nodup : indexes.Nodup := by
  unfold indexes
  exact List.nodup_finRange 512

theorem mem_indexes (j : Fin 512) : j ∈ indexes := by
  unfold indexes
  exact List.mem_finRange j

theorem ptr_entry (o₀ : Obs) (i : Fin 15) (j : Fin 512) :
    ptr ip o₀ ⟨i,[j]⟩ = if ip.addrs i = 0 then 0 else word (o₀.view (ip.addrs i)) j := rfl

theorem Tree.root_plain (tree : Tree fs ip o₀) {i : Fin 15} (there : ip.addrs i ≠ 0) :
    ip.addrs i ≠ 1 ∧ ip.addrs i ≠ bitmapAt o₀ 0 := tree.plain ⟨i,[]⟩ (Nat.zero_le _) there

section

variable (ground : Ground fs o₀) (tree : Tree fs ip o₀)

include ground tree

theorem bfree_slot (freed : Freed ip o₀ gone edited locks (obs d))
    (kept : 1 ∉ edited) (free : 1 ∉ locks) (bitmap : bitmapAt o₀ 0 ∉ locks) (within : σ.Within ext2Depth)
    (inside : ∀ ρ ∈ gone, ρ.Within ext2Depth) (new : σ ∉ gone) (there : ptr ip o₀ σ ≠ 0) :
    Meets (bfree fs (ptr ip o₀ σ)) d
      (fun _ d' => Freed ip o₀ (insert σ gone) edited locks (obs d') ∧ ∀ x ∈ locks, (obs d').view x = (obs d).view x) fail := by
  have small := tree.group σ within there
  obtain ⟨desc,synced⟩ := freed.desc ground kept
  have home : homeOf fs (ptr ip o₀ σ) = 0 := Nat.div_eq_of_lt small
  have block : clearedBlock fs (obs d) (ptr ip o₀ σ) = bitmapAt o₀ 0 := by
    rw [clearedBlock,home,Ext2.desc,desc]
    rfl
  have index : clearedBit fs (obs d) (ptr ip o₀ σ) = bitFor o₀ (ptr ip o₀ σ) := by
    have whole : ptr ip o₀ σ % fs.exs.blocksPerGroup = ptr ip o₀ σ := by
      rw [← UInt32.toNat_inj,UInt32.toNat_mod,Nat.mod_eq_of_lt small]
    rw [clearedBit,block,whole,bitFor]
  have marked := freed.marked tree within inside new there
  have bound := bit_inside marked
  have idle (x : Blockno) (absent : x ∉ locks) : (obs d).held x = false := by
    rw [← Bool.not_eq_true,freed.held x]
    exact absent
  refine (bfree_meets fs (ptr ip o₀ σ) d (idle 1 free) (.inr synced)).mono ?_ ?_
  · rintro _ d' ⟨-,-,-,o,drift,-,after⟩
    rw [block,index] at after
    obtain ⟨freed',same⟩ := freed.drift ground drift
    rw [after]
    refine ⟨freed'.give there bound,fun x member => ?_⟩
    have other : x ≠ bitmapAt o₀ 0 := fun equal => bitmap (equal ▸ member)
    rw [← same x member]
    exact update_of_ne other _ _
  · rw [home,block,index]
    rintro e (far | one | busy | outside | ⟨o,drift,clear⟩)
    · omega
    · exact absurd one ground.behind.2
    · exact absurd ((idle _ bitmap).symm.trans busy) Bool.false_ne_true
    · omega
    · rw [drift.view_eq (.inr freed.synced),marked] at clear
      cases clear

theorem freeEntries_meets {i : Fin 15} (deep : 1 ≤ ext2Depth i) {root : Blockno}
    (kept : 1 ∉ edited) (free : 1 ∉ locks) (bitmap : bitmapAt o₀ 0 ∉ locks) (here : root ∈ locks) (listed : root ∈ edited)
    (js : List (Fin 512)) (nodup : js.Nodup) (freed : Freed ip o₀ gone edited locks (obs d))
    (inside : ∀ ρ ∈ gone, ρ.Within ext2Depth) (new : ∀ j ∈ js, (⟨i,[j]⟩ : Place) ∉ gone)
    (words : ∀ j ∈ js, word ((obs d).view root) j = ptr ip o₀ ⟨i,[j]⟩) :
    Meets (js.forM (freeEntry fs root)) d
      (fun _ d' => Freed ip o₀ (gone ∪ entrySlots i js) edited locks (obs d') ∧
        ∀ j : Fin 512, word ((obs d').view root) j = if j ∈ js then 0 else word ((obs d).view root) j) fail := by
  have other : root ≠ bitmapAt o₀ 0 := fun equal => bitmap (equal ▸ here)
  induction js generalizing d gone with
  | nil =>
    rw [slotsOf_nil]
    exact .pure_intro ⟨freed,fun j => by simp⟩
  | cons j js ih =>
    obtain ⟨absent,nodup⟩ := List.nodup_cons.mp nodup
    have within : Slot.Within ext2Depth (⟨i,[j]⟩ : Place) := deep
    have held := (freed.held root).mpr here
    have inside' := Set.forall_insert_of_forall inside within
    have new' := fresh_tail (f := fun j => ⟨i,[j]⟩) (fun _ _ same => by simpa using same) absent new
    have entry := words j List.mem_cons_self
    change Meets (freeEntry fs root j >>= fun _ => js.forM (freeEntry fs root)) d _ _
    rw [slotsOf_cons]
    -- the entry is zero in the state in which the rest of the loop begins
    have round : Meets (freeEntry fs root j) d (fun _ d' => Freed ip o₀ (insert ⟨i,[j]⟩ gone) edited locks (obs d') ∧
        ∀ k : Fin 512, word ((obs d').view root) k = if k = j then 0 else word ((obs d).view root) k) fail := by
      rw [freeEntry]
      refine .step (entryOf_run held j) ?_
      by_cases empty : word ((obs d).view root) j = 0
      · rw [if_neg (not_not.mpr empty)]
        refine .pure_intro ⟨freed.skip (entry.symm.trans empty),fun k => ?_⟩
        split_ifs with same
        · rw [same,empty]
        · rfl
      · rw [if_pos empty,entry]
        rw [entry] at empty
        refine (bfree_slot ground tree freed kept free bitmap within inside (new j List.mem_cons_self) empty).bind ?_
        rintro ⟨⟩ d₁ ⟨freed₁,same₁⟩
        obtain ⟨d₂,ran₂,zeroed⟩ := zeroEntry_run ((freed₁.held root).mpr here) j
        refine .of_ok ran₂ ⟨?_,fun k => ?_⟩
        · rw [zeroed]
          exact freed₁.set other listed _
        · rw [zeroed,← same₁ root here]
          simp only [Obs.set,update_self]
          rw [word,Bytes.u32_setU32_word _ _ _ _ (by simp only [bsize]; omega)]
          simp only [Fin.val_inj,eq_comm]
          rfl
    refine round.bind ?_
    rintro ⟨⟩ d₁ ⟨freed₁,words₁⟩
    refine (ih nodup freed₁ inside' new' ?_).mono ?_ (fun _ => id)
    · intro j' member
      have apart : j' ≠ j := fun equal => absent (equal ▸ member)
      rw [words₁ j',if_neg apart]
      exact words j' (List.mem_cons_of_mem _ member)
    · rintro ⟨⟩ d₂ ⟨freed₂,words₂⟩
      refine ⟨freed₂,fun k => ?_⟩
      rw [words₂ k,words₁ k]
      by_cases later : k ∈ js
      · rw [if_pos later,if_pos (List.mem_cons_of_mem j later)]
      · rw [if_neg later]
        exact if_congr (by rw [List.mem_cons,or_iff_left later]) rfl rfl

theorem freeDirects_meets (is : List (Fin 15)) (nodup : is.Nodup) {ip₁ : Inode}
    (freed : Freed ip o₀ gone ∅ ∅ (obs d)) (inside : ∀ ρ ∈ gone, ρ.Within ext2Depth)
    (new : ∀ i ∈ is, (⟨i,[]⟩ : Place) ∉ gone) (same : ∀ i ∈ is, ip₁.addrs i = ip.addrs i) :
    Meets (is.foldlM (freeDirect fs) ip₁) d
      (fun ip' d' => ip' = {ip₁ with addrs := fun i => if i ∈ is then 0 else ip₁.addrs i} ∧
        Freed ip o₀ (gone ∪ rootSlots is) ∅ ∅ (obs d')) fail := by
  induction is generalizing d gone ip₁ with
  | nil =>
    rw [slotsOf_nil]
    exact .pure_intro ⟨by simp,freed⟩
  | cons i is ih =>
    obtain ⟨absent,nodup⟩ := List.nodup_cons.mp nodup
    have within : Slot.Within ext2Depth (⟨i,[]⟩ : Place) := Nat.zero_le _
    have here : ip₁.addrs i = ptr ip o₀ ⟨i,[]⟩ := same i List.mem_cons_self
    have inside' := Set.forall_insert_of_forall inside within
    have new' := fresh_tail (f := fun i => ⟨i,[]⟩) (fun _ _ same => by simpa using same) absent new
    rw [slotsOf_cons,List.foldlM_cons]
    have round : Meets (freeDirect fs ip₁ i) d (fun ip' d' => ip' = {ip₁ with addrs := update ip₁.addrs i 0} ∧
        Freed ip o₀ (insert ⟨i,[]⟩ gone) ∅ ∅ (obs d')) fail := by
      rw [freeDirect]
      by_cases empty : ip₁.addrs i = 0
      · rw [if_neg (not_not.mpr empty)]
        refine .pure_intro ⟨?_,freed.skip (here.symm.trans empty)⟩
        rw [← empty,update_eq_self]
      · rw [if_pos empty,here]
        rw [here] at empty
        refine (bfree_slot ground tree freed (Set.notMem_empty _) (Finset.notMem_empty _) (Finset.notMem_empty _) within inside
          (new i List.mem_cons_self) empty).bind ?_
        rintro ⟨⟩ d₁ ⟨freed₁,-⟩
        exact .pure_intro ⟨rfl,freed₁⟩
    refine round.bind ?_
    rintro ip₂ d₁ ⟨rfl,freed₁⟩
    refine (ih nodup freed₁ inside' new' ?_).mono ?_ (fun _ => id)
    · intro i' member
      have apart : i' ≠ i := fun equal => absent (equal ▸ member)
      rw [← same i' (List.mem_cons_of_mem _ member)]
      exact update_of_ne apart _ _
    · rintro ip₃ d₂ ⟨rfl,freed₂⟩
      refine ⟨?_,freed₂⟩
      congr 1
      funext i'
      by_cases equal : i' = i
      · simp [equal]
      · simp [equal]

theorem truncSingle_meets {ip₁ : Inode} (root : ip₁.addrs 12 = ip.addrs 12)
    (freed : Freed ip o₀ gone ∅ ∅ (obs d)) (inside : ∀ ρ ∈ gone, ρ.Within ext2Depth) (new : (⟨12,[]⟩ : Place) ∉ gone)
    (new' : ∀ j, (⟨12,[j]⟩ : Place) ∉ gone) :
    Meets (truncSingle fs ip₁) d
      (fun ip' d' => ip' = {ip₁ with addrs := update ip₁.addrs 12 0} ∧
        Freed ip o₀ (insert ⟨12,[]⟩ (gone ∪ entrySlots 12 indexes)) {ip.addrs 12} ∅ (obs d')) fail := by
  have deep : 1 ≤ ext2Depth 12 := by decide
  have inside' : ∀ ρ ∈ gone ∪ entrySlots 12 indexes, ρ.Within ext2Depth := by
    rintro ρ (old | ⟨j,-,rfl⟩)
    · exact inside ρ old
    · exact deep
  have fresh : (⟨12,[]⟩ : Place) ∉ gone ∪ entrySlots 12 indexes := by
    rintro (old | ⟨j,-,equal⟩)
    · exact new old
    · simp at equal
  have edited : Freed ip o₀ gone {ip.addrs 12} ∅ (obs d) := by
    rw [← insert_empty_eq]
    exact freed.edit _
  rw [truncSingle,root]
  by_cases empty : ip.addrs 12 = 0
  · rw [if_neg (not_not.mpr empty)]
    refine .pure_intro ⟨?_,edited.skips (fun ρ old => .inr (.inl old)) ?_⟩
    · rw [← empty,← root,update_eq_self]
    · rintro ρ (rfl | old | ⟨j,-,rfl⟩) missing
      · exact empty
      · exact absurd old missing
      · rw [ptr_entry,if_pos empty]
  · obtain ⟨other,apart⟩ := tree.root_plain empty
    rw [if_pos empty]
    obtain ⟨d₁,ran₁,freed₁,-⟩ := bread_freed ground freed (Finset.notMem_empty (ip.addrs 12))
    have kept : 1 ∉ ({ip.addrs 12} : Set Blockno) := fun equal => other (Set.mem_singleton_iff.mp equal).symm
    have words (j : Fin 512) : word ((obs d₁).view (ip.addrs 12)) j = ptr ip o₀ ⟨12,[j]⟩ := by
      rw [ptr_entry,if_neg empty,freed₁.view _ apart (Set.notMem_empty _)]
    replace freed₁ := freed₁.edit (ip.addrs 12)
    rw [insert_empty_eq] at freed₁
    refine .step ran₁ ((freeEntries_meets ground tree deep kept (by simpa [eq_comm] using other) (by simpa [eq_comm] using apart)
      (Finset.mem_insert_self _ _) (Set.mem_singleton _) indexes indexes_nodup freed₁ inside (fun j _ => new' j)
      (fun j _ => words j)).bind ?_)
    rintro ⟨⟩ d₂ ⟨freed₂,-⟩
    obtain ⟨d₃,ran₃,freed₃,-⟩ := brelse_freed freed₂ (Finset.notMem_empty _)
    refine .step ran₃ ((bfree_slot (σ := ⟨12,[]⟩) ground tree freed₃ kept (Finset.notMem_empty _) (Finset.notMem_empty _)
      (Nat.zero_le _) inside' fresh empty).bind ?_)
    rintro ⟨⟩ d₄ ⟨freed₄,-⟩
    exact .pure_intro ⟨rfl,freed₄⟩

theorem doubleEntry_never (root : ip.addrs 13 ≠ 0)
    (freed : Freed ip o₀ gone edited {ip.addrs 13} (obs d)) (kept : 1 ∉ edited) (inside : ∀ ρ ∈ gone, ρ.Within ext2Depth)
    (new : ∀ j, (⟨13,[j]⟩ : Place) ∉ gone)
    (words : ∀ j : Fin 512, word ((obs d).view (ip.addrs 13)) j = ptr ip o₀ ⟨13,[j]⟩) {j : Fin 512}
    (there : ptr ip o₀ ⟨13,[j]⟩ ≠ 0) : Meets (doubleEntry fs (ip.addrs 13) j) d (fun _ _ => False) (fun _ => True) := by
  have deep : 1 ≤ ext2Depth 13 := by decide
  have within : Slot.Within ext2Depth (⟨13,[j]⟩ : Place) := deep
  obtain ⟨other,apart⟩ := tree.root_plain root
  obtain ⟨other',apart'⟩ := tree.plain _ within there
  have different : ptr ip o₀ ⟨13,[j]⟩ ∉ ({ip.addrs 13} : Finset Blockno) := by
    intro equal
    have slots := tree.distinct _ ⟨13,[]⟩ within (Nat.zero_le _) there (Finset.mem_singleton.mp equal)
    simp at slots
  have here : ip.addrs 13 ∈ ({ip.addrs 13} : Finset Blockno) := Finset.mem_singleton_self _
  rw [doubleEntry]
  refine .step (entryOf_run ((freed.held _).mpr here) j) ?_
  rw [words j,if_pos there]
  obtain ⟨d₁,ran₁,freed₁,same₁⟩ := bread_freed ground freed different
  refine .step ran₁ ((freeEntries_meets ground tree deep ?_ ?_ ?_
    (Finset.mem_insert_of_mem here) (Set.mem_insert _ _) indexes indexes_nodup (freed₁.edit _) inside
    (fun j _ => new j) (fun j _ => by rw [same₁ _ here]; exact words j)).bind ?_)
  · rintro (equal | old)
    · exact other equal.symm
    · exact kept old
  · simp only [Finset.mem_insert,Finset.mem_singleton,not_or]
    exact ⟨other'.symm,other.symm⟩
  · simp only [Finset.mem_insert,Finset.mem_singleton,not_or]
    exact ⟨apart'.symm,apart.symm⟩
  rintro ⟨⟩ d₂ ⟨freed₂,zeroed⟩
  obtain ⟨d₃,ran₃,freed₃,same₃⟩ := brelse_freed freed₂ different
  refine .step ran₃ (.step (entryOf_run ((freed₃.held _).mpr here) j) ?_)
  rw [same₃,zeroed j,if_pos (mem_indexes j)]
  obtain ⟨desc,synced⟩ := freed₃.desc ground (by
    rintro (equal | old)
    · exact other equal.symm
    · exact kept old)
  refine (bfree_zero ground ?_ desc synced).bind (fun _ _ never => never.elim)
  rw [← Bool.not_eq_true,freed₃.held,Finset.mem_singleton]
  exact other.symm

theorem doubleEntries_meets (root : ip.addrs 13 ≠ 0)
    (freed : Freed ip o₀ gone edited {ip.addrs 13} (obs d)) (kept : 1 ∉ edited) (inside : ∀ ρ ∈ gone, ρ.Within ext2Depth)
    (new : ∀ j, (⟨13,[j]⟩ : Place) ∉ gone)
    (words : ∀ j : Fin 512, word ((obs d).view (ip.addrs 13)) j = ptr ip o₀ ⟨13,[j]⟩) (js : List (Fin 512)) :
    Meets (js.forM (doubleEntry fs (ip.addrs 13))) d (fun _ d' => d' = d ∧ ∀ j ∈ js, ptr ip o₀ ⟨13,[j]⟩ = 0)
      (fun _ => ∃ j ∈ js, ptr ip o₀ ⟨13,[j]⟩ ≠ 0) := by
  induction js with
  | nil => exact .pure_intro ⟨rfl,fun j none => absurd none List.not_mem_nil⟩
  | cons j js ih =>
    change Meets (doubleEntry fs (ip.addrs 13) j >>= fun _ => js.forM (doubleEntry fs (ip.addrs 13))) d _ _
    by_cases empty : ptr ip o₀ ⟨13,[j]⟩ = 0
    · have held := (freed.held _).mpr (Finset.mem_singleton_self (ip.addrs 13))
      have ran : doubleEntry fs (ip.addrs 13) j d = .ok ((),d) := by
        rw [doubleEntry,bind_ok (entryOf_run held j),words j,if_neg (not_not.mpr empty)]
        rfl
      refine .step ran (ih.mono ?_ ?_)
      · rintro ⟨⟩ d' ⟨rfl,zero⟩
        exact ⟨rfl,List.forall_mem_cons.mpr ⟨empty,zero⟩⟩
      · rintro e ⟨j',member,there⟩
        exact ⟨j',List.mem_cons_of_mem j member,there⟩
    · refine ((doubleEntry_never ground tree root freed kept inside new words empty).excuse ?_).bind (fun _ _ never => never.elim)
      exact fun _ _ => ⟨j,List.mem_cons_self,empty⟩

theorem truncDouble_meets {ip₁ : Inode} (root : ip₁.addrs 13 = ip.addrs 13)
    (freed : Freed ip o₀ gone edited ∅ (obs d)) (kept : 1 ∉ edited) (unread : ip.addrs 13 ≠ 0 → ip.addrs 13 ∉ edited)
    (inside : ∀ ρ ∈ gone, ρ.Within ext2Depth) (new : (⟨13,[]⟩ : Place) ∉ gone) (new' : ∀ j, (⟨13,[j]⟩ : Place) ∉ gone) :
    Meets (truncDouble fs ip₁) d
      (fun ip' d' => ip' = {ip₁ with addrs := update ip₁.addrs 13 0} ∧ (∀ j, ptr ip o₀ ⟨13,[j]⟩ = 0) ∧
        Freed ip o₀ (insert ⟨13,[]⟩ gone) edited ∅ (obs d'))
      (fun _ => ∃ j, ptr ip o₀ ⟨13,[j]⟩ ≠ 0) := by
  rw [truncDouble,root]
  by_cases empty : ip.addrs 13 = 0
  · rw [if_neg (not_not.mpr empty)]
    refine .pure_intro ⟨?_,fun j => by rw [ptr_entry,if_pos empty],freed.skip empty⟩
    rw [← empty,← root,update_eq_self]
  · obtain ⟨other,apart⟩ := tree.root_plain empty
    rw [if_pos empty]
    obtain ⟨d₁,ran₁,freed₁,-⟩ := bread_freed ground freed (Finset.notMem_empty (ip.addrs 13))
    have words (j : Fin 512) : word ((obs d₁).view (ip.addrs 13)) j = ptr ip o₀ ⟨13,[j]⟩ := by
      rw [ptr_entry,if_neg empty,freed₁.view _ apart (unread empty)]
    refine .step ran₁ (((doubleEntries_meets ground tree empty freed₁ kept inside new' words indexes).excuse ?_).bind ?_)
    · rintro e ⟨j,-,there⟩
      exact ⟨j,there⟩
    rintro ⟨⟩ d₂ ⟨rfl,zero⟩
    obtain ⟨d₃,ran₃,freed₃,-⟩ := brelse_freed freed₁ (Finset.notMem_empty _)
    refine .step ran₃ ((bfree_slot (σ := ⟨13,[]⟩) ground tree freed₃ kept (Finset.notMem_empty _) (Finset.notMem_empty _)
      (Nat.zero_le _) inside new empty).bind ?_)
    rintro ⟨⟩ d₄ ⟨freed₄,-⟩
    exact .pure_intro ⟨rfl,fun j => zero j (mem_indexes j),freed₄⟩

end

structure Watched (o₀ : Obs) (locks : Finset Blockno) (o : Obs) : Prop where
  held : ∀ x, o.held x = true ↔ x ∈ locks
  desc : o.view 1 = o₀.view 1
  synced : o.view 1 = o.disk 1

theorem Watched.free (watched : Watched o₀ locks o) {b : Blockno} (absent : b ∉ locks) : o.held b = false := by
  rw [← Bool.not_eq_true,watched.held b]
  exact absent

theorem Watched.drift {recycle : Dev → Blockno → Bool} (watched : Watched o₀ locks o) (drift : Drift recycle o o') :
    Watched o₀ locks o' := by
  have view := drift.view_eq (.inr watched.synced)
  refine ⟨fun x => ?_,view.trans watched.desc,?_⟩
  · rw [drift.held]
    exact watched.held x
  · rw [view,drift.disk]
    exact watched.synced

theorem tripleInner_meets {root addr : Blockno} {j : Fin 512} (heldRoot : (obs d).held root = true)
    (heldAddr : (obs d).held addr = true) (entry : word ((obs d).view root) j = addr) (is : List (Fin 512)) :
    Meets (is.forM (tripleInner fs root j addr)) d (fun _ d' => d' = d) (fun _ => True) := by
  induction is with
  | nil => exact .pure_intro rfl
  | cons i is ih =>
    change Meets (tripleInner fs root j addr i >>= fun _ => is.forM (tripleInner fs root j addr)) d _ _
    by_cases empty : word ((obs d).view addr) i = 0
    · have ran : tripleInner fs root j addr i d = .ok ((),d) := by
        rw [tripleInner,bind_ok (entryOf_run heldAddr i),if_neg (not_not.mpr empty)]
        rfl
      exact .step ran ih
    · have stopped : tripleInner fs root j addr i d = .error .deadlock := by
        rw [tripleInner,bind_ok (entryOf_run heldAddr i),if_pos empty,bind_ok (entryOf_run heldRoot j),entry,
          bind_error (bread_held fs.recycle heldAddr)]
      exact .stop stopped trivial

theorem Watched.write (watched : Watched o₀ locks o) {b : Blockno} (other : b ≠ 1) (data : Block) :
    Watched o₀ locks (o.write b data) where
  held := watched.held
  desc := (update_of_ne other.symm _ _).trans watched.desc
  synced := by
    simp only [Obs.write,update_of_ne other.symm]
    exact watched.synced

theorem Watched.set (watched : Watched o₀ locks o) {b : Blockno} (other : b ≠ 1) (data : Block) :
    Watched o₀ locks (o.set b data) where
  held := watched.held
  desc := (update_of_ne other.symm _ _).trans watched.desc
  synced := (update_of_ne other.symm _ _).trans watched.synced

theorem tripleEntry_meets {root : Blockno} (other : root ≠ 1) (watched : Watched o₀ {root} (obs d)) (j : Fin 512) :
    Meets (tripleEntry fs root j) d (fun _ d' => Watched o₀ {root} (obs d')) (fun _ => True) := by
  have here : root ∈ ({root} : Finset Blockno) := Finset.mem_singleton_self root
  have held := (watched.held root).mpr here
  rw [tripleEntry]
  refine .step (entryOf_run held j) ?_
  generalize entry : word ((obs d).view root) j = addr
  by_cases empty : addr = 0
  · rw [if_neg (not_not.mpr empty)]
    exact .pure_intro watched
  rw [if_pos empty]
  by_cases same : addr = root
  · exact .stop (bread_held fs.recycle (same ▸ held)) trivial
  have free := watched.free (mt Finset.mem_singleton.mp same)
  obtain ⟨d₁,o,ran₁,drift,locked⟩ := bread_drift fs.recycle free
  have watched₁ := watched.drift drift
  have rootView : o.view root = (obs d).view root := by
    rcases drift.view root with kept | ⟨unheld,-⟩
    · exact kept
    · rw [held] at unheld
      cases unheld
  refine .step ran₁ ((tripleInner_meets ?_ ?_ ?_ indexes).bind ?_)
  · rw [locked]
    exact (update_of_ne (Ne.symm same) _ _).trans ((watched₁.held root).mpr here)
  · rw [locked]
    exact update_self _ _ _
  · rw [locked]
    exact (congrArg (word · j) rootView).trans entry
  rintro ⟨⟩ d₂ rfl
  obtain ⟨d₃,ran₃,released⟩ := brelse_run (d := d₂) (b := addr) (by
    rw [locked]
    exact update_self _ _ _)
  rw [locked,Obs.unlock_lock _ _ (watched₁.free (mt Finset.mem_singleton.mp same))] at released
  rw [← released] at watched₁ rootView
  refine .step ran₃ (.step (entryOf_run ((watched₁.held root).mpr here) j) ?_)
  refine ((bfree_meets fs _ d₃ (watched₁.free (mt Finset.mem_singleton.mp other.symm)) (.inr watched₁.synced)).excuse
    (fun _ _ => trivial)).bind ?_
  rintro ⟨⟩ d₄ ⟨-,apart,-,o',drift',-,after⟩
  have watched₄ : Watched o₀ {root} (obs d₄) := by
    rw [after]
    exact (watched₁.drift drift').write apart _
  obtain ⟨d₅,ran₅,zeroed⟩ := zeroEntry_run ((watched₄.held root).mpr here) j
  refine .of_ok ran₅ ?_
  rw [zeroed]
  exact watched₄.set other _

theorem tripleEntries_meets {root : Blockno} (other : root ≠ 1) (watched : Watched o₀ {root} (obs d)) (js : List (Fin 512)) :
    Meets (js.forM (tripleEntry fs root)) d (fun _ d' => Watched o₀ {root} (obs d')) (fun _ => True) := by
  induction js generalizing d with
  | nil => exact .pure_intro watched
  | cons j js ih =>
    change Meets (tripleEntry fs root j >>= fun _ => js.forM (tripleEntry fs root)) d _ _
    exact (tripleEntry_meets other watched j).bind (fun _ _ watched₁ => ih watched₁)

theorem truncTriple_never (ground : Ground fs o₀) (watched : Watched o₀ ∅ (obs d)) {ip₁ : Inode} (root : ip₁.addrs 13 = 0)
    (there : ip₁.addrs 14 ≠ 0) : Meets (truncTriple fs ip₁) d (fun _ _ => False) (fun _ => True) := by
  have other : (0 : Blockno) ≠ 1 := by decide
  rw [truncTriple,if_pos there,root]
  obtain ⟨d₁,o,ran₁,drift,locked⟩ := bread_drift fs.recycle (watched.free (Finset.notMem_empty 0))
  have watched₁ : Watched o₀ {0} (obs d₁) := by
    obtain ⟨held,desc,synced⟩ := watched.drift drift
    rw [locked]
    refine ⟨fun x => ?_,desc,synced⟩
    simp only [Obs.lock,update_apply,Finset.mem_singleton]
    split_ifs with same
    · simp [same]
    · simp [same,held x]
  refine .step ran₁ ((tripleEntries_meets other watched₁ indexes).bind ?_)
  rintro ⟨⟩ d₂ watched₂
  obtain ⟨d₃,ran₃,released⟩ := brelse_run (d := d₂) (b := 0) ((watched₂.held 0).mpr (Finset.mem_singleton_self 0))
  refine .step ran₃ ((bfree_zero ground ?_ ?_ ?_).bind (fun _ _ never => never.elim))
  · rw [released]
    simp only [Obs.unlock,update_of_ne other.symm]
    exact watched₂.free (mt Finset.mem_singleton.mp other.symm)
  · rw [released]
    exact watched₂.desc
  · rw [released]
    exact watched₂.synced

theorem ptr_below {i : Fin 15} (empty : ∀ j, ptr ip o₀ ⟨i,[j]⟩ = 0) (j : Fin 512) (path : List (Fin 512)) :
    ptr ip o₀ ⟨i,j :: path⟩ = 0 := by
  induction path generalizing j with
  | nil => exact empty j
  | cons j' path ih =>
    rw [ptr,Slot.ptr_child,← ptr,ih j',if_pos rfl]

/-- The slots that `ext2_itrunc` goes through if it returns. -/
def visited : Set Place := insert ⟨13,[]⟩ (insert ⟨12,[]⟩ (∅ ∪ rootSlots directs ∪ entrySlots 12 indexes))

theorem mem_visited (last : ip.addrs 14 = 0) (empty : ∀ j, ptr ip o₀ ⟨13,[j]⟩ = 0) (within : σ.Within ext2Depth)
    (there : ptr ip o₀ σ ≠ 0) : σ ∈ visited := by
  have root := root_ne_zero there
  obtain ⟨i,path⟩ := σ
  have few : ∀ i : Fin 15, i ∈ directs ∧ ext2Depth i = 0 ∨ i = 12 ∨ i = 13 ∨ i = 14 := by decide
  rcases few i with ⟨direct,flat⟩ | rfl | rfl | rfl
  · rw [Slot.Within,flat] at within
    obtain rfl := List.eq_nil_of_length_eq_zero (Nat.le_zero.mp within)
    exact .inr (.inr (.inl (.inr ⟨i,direct,rfl⟩)))
  · cases path with
    | nil => exact .inr (.inl rfl)
    | cons j path =>
      obtain rfl := List.eq_nil_of_length_eq_zero (Nat.le_zero.mp (Nat.le_of_succ_le_succ within))
      exact .inr (.inr (.inr ⟨j,mem_indexes j,rfl⟩))
  · cases path with
    | nil => exact .inl rfl
    | cons j path => exact absurd (ptr_below empty j path) there
  · exact absurd last root

theorem visited_within (member : σ ∈ visited) : σ.Within ext2Depth := by
  rcases member with rfl | rfl | (none | ⟨i,-,rfl⟩) | ⟨j,-,rfl⟩
  · exact Nat.zero_le _
  · exact Nat.zero_le _
  · exact absurd none (Set.notMem_empty _)
  · exact Nat.zero_le _
  · exact show 1 ≤ ext2Depth 12 by decide

theorem itrunc_meets (ground : Ground fs (obs d)) (tree : Tree fs ip (obs d)) :
    Meets (itrunc fs ip) d
      (fun ip' d' => (ip.addrs 14 = 0 ∧ ∀ j, ptr ip (obs d) ⟨13,[j]⟩ = 0) ∧ (∀ i, ip'.addrs i = 0) ∧
        Freed ip (obs d) visited {ip.addrs 12} ∅ (obs d'))
      (fun _ => ¬(ip.addrs 14 = 0 ∧ ∀ j, ptr ip (obs d) ⟨13,[j]⟩ = 0)) := by
  have absent : ∀ i, i = (12 : Fin 15) ∨ i = 13 ∨ i = 14 → i ∉ directs := by decide
  have inside₁ : ∀ ρ ∈ (∅ : Set Place) ∪ rootSlots directs, ρ.Within ext2Depth :=
    fun ρ member => visited_within (.inr (.inr (.inl member)))
  have inside₂ : ∀ ρ ∈ insert (⟨12,[]⟩ : Place) (∅ ∪ rootSlots directs ∪ entrySlots 12 indexes), ρ.Within ext2Depth :=
    fun ρ member => visited_within (.inr member)
  have new {i : Fin 15} {path : List (Fin 512)} (far : i ∉ directs) : (⟨i,path⟩ : Place) ∉ (∅ : Set Place) ∪ rootSlots directs := by
    rintro (none | ⟨i',member,equal⟩)
    · exact none
    · obtain ⟨rfl,-⟩ := Slot.mk.inj equal
      exact far member
  have new₂ {path : List (Fin 512)} :
      (⟨13,path⟩ : Place) ∉ insert (⟨12,[]⟩ : Place) (∅ ∪ rootSlots directs ∪ entrySlots 12 indexes) := by
    rintro (equal | old | ⟨j,-,equal⟩)
    · exact absurd (congrArg Slot.root equal) (show (13 : Fin 15) ≠ 12 by decide)
    · exact new (absent 13 (.inr (.inl rfl))) old
    · exact absurd (congrArg Slot.root equal) (show (13 : Fin 15) ≠ 12 by decide)
  have kept : 1 ∉ ({ip.addrs 12} : Set Blockno) := by
    intro equal
    have one : ip.addrs 12 = 1 := (Set.mem_singleton_iff.mp equal).symm
    exact (tree.root_plain (by rw [one]; decide)).1 one
  have unread (there : ip.addrs 13 ≠ 0) : ip.addrs 13 ∉ ({ip.addrs 12} : Set Blockno) := by
    intro equal
    have slots := tree.distinct ⟨13,[]⟩ ⟨12,[]⟩ (Nat.zero_le _) (Nat.zero_le _) there (Set.mem_singleton_iff.mp equal)
    exact absurd (congrArg Slot.root slots) (by decide)
  rw [itrunc]
  refine (freeDirects_meets ground tree directs (by decide) ground.freed (fun _ none => absurd none (Set.notMem_empty _))
    (fun _ _ => Set.notMem_empty _) (fun _ _ => rfl)).bind ?_
  rintro ip₁ d₁ ⟨after₁,freed₁⟩
  have addrs₁ (i : Fin 15) : ip₁.addrs i = if i ∈ directs then 0 else ip.addrs i := by rw [after₁]
  refine (truncSingle_meets ground tree ((addrs₁ 12).trans (if_neg (absent 12 (.inl rfl)))) freed₁ inside₁
    (new (absent 12 (.inl rfl))) (fun j => new (absent 12 (.inl rfl)))).bind ?_
  rintro ip₂ d₂ ⟨after₂,freed₂⟩
  have addrs₂ (i : Fin 15) : ip₂.addrs i = if i = 12 then 0 else ip₁.addrs i := by
    rw [after₂]
    exact update_apply _ _ _ _
  have double : ip₂.addrs 13 = ip.addrs 13 := by
    rw [addrs₂,if_neg (by decide),addrs₁,if_neg (absent 13 (.inr (.inl rfl)))]
  refine ((truncDouble_meets ground tree double freed₂ kept unread inside₂ new₂ (fun j => new₂)).excuse ?_).bind ?_
  · rintro e ⟨j,there⟩ ⟨-,zero⟩
    exact there (zero j)
  rintro ip₃ d₃ ⟨after₃,zero,freed₃⟩
  have addrs₃ (i : Fin 15) : ip₃.addrs i = if i = 13 then 0 else ip₂.addrs i := by
    rw [after₃]
    exact update_apply _ _ _ _
  have last : ip₃.addrs 14 = ip.addrs 14 := by
    rw [addrs₃,if_neg (by decide),addrs₂,if_neg (by decide),addrs₁,if_neg (absent 14 (.inr (.inr rfl)))]
  by_cases there : ip.addrs 14 = 0
  · rw [truncTriple,if_neg (not_not.mpr (last.trans there))]
    refine .pure_intro ⟨⟨there,zero⟩,fun i => ?_,freed₃⟩
    have few : ∀ i : Fin 15, i ∈ directs ∨ i = 12 ∨ i = 13 ∨ i = 14 := by decide
    rw [addrs₃,addrs₂,addrs₁]
    rcases few i with direct | rfl | rfl | rfl
    · simp [direct]
    · simp
    · simp
    · simp [there]
  · obtain ⟨desc,synced⟩ := freed₃.desc ground kept
    refine (truncTriple_never ground ⟨freed₃.held,desc,synced⟩ ((addrs₃ 13).trans (if_pos rfl)) (last.trans_ne there)).mono
      (fun _ _ never => never.elim) ?_
    rintro e - ⟨zero,-⟩
    exact there zero

end

/-- `ext2_itrunc` gives back the tree of an inode exactly when there is no triple-indirect block and nothing in the
double-indirect one. -/
theorem itrunc_frees_tree_iff {fs : Mount} {ip : Inode} {d : Dev} (ground : Ground fs (obs d)) (tree : Tree fs ip (obs d)) :
    Truncates fs ip d ↔ ip.addrs 14 = 0 ∧ ∀ j, ptr ip (obs d) ⟨13,[j]⟩ = 0 := by
  have meets := itrunc_meets ground tree
  constructor
  · rintro ⟨ip',d',ran,-⟩
    exact (meets.result ran).1
  · rintro small
    obtain ⟨ip',d',ran,-,zero,freed⟩ := meets.returns (fun _ large => large small)
    refine ⟨ip',d',ran,zero,fun z => (freed.bits z).trans (and_congr_right' ⟨?_,?_⟩),freed.synced.symm,freed.disk⟩
    · exact fun all σ within there => all σ (mem_visited small.1 small.2 within there) there
    · exact fun all σ member => all σ (visited_within member)

/-- Block 6 points to block 7, and block 7 to block 8. -/
def linkedDisk : Blockno → Block := fun b =>
  if b = 4 then (((((Bytes.zero bsize).setBit 0).setBit 1).setBit 2).setBit 3).setBit 4
  else if b = 6 then (Bytes.zero bsize).setU32 0 7
  else if b = 7 then (Bytes.zero bsize).setU32 0 8
  else bare b

def rooted (i : Fin 15) : Inode := ⟨1,.file,0,1,0,fun k => if k = 0 then 5 else if k = i then 6 else 0⟩

theorem linkedDisk_ground : Ground stillMount (obs (cold linkedDisk)) :=
  ⟨by decide +kernel,by decide +kernel,by decide,fun _ => rfl,rfl,rfl,fun _ => .inr rfl⟩

theorem linkedDisk_entry : (∀ k : Fin 512, entry (obs (cold linkedDisk)) 6 k = if k = 0 then 7 else 0) ∧
    ∀ k : Fin 512, entry (obs (cold linkedDisk)) 7 k = if k = 0 then 8 else 0 := by decide +kernel

def rootedSlots (i : Fin 15) : List (Place × Blockno) := [(⟨0,[]⟩,5),(⟨i,[]⟩,6),(⟨i,[0]⟩,7),(⟨i,[0,0]⟩,8)]

theorem rooted_ptr {i : Fin 15} (two : i = 12 ∨ i = 13) {σ : Place} (within : σ.Within ext2Depth)
    (there : ptr (rooted i) (obs (cold linkedDisk)) σ ≠ 0) :
    (σ,ptr (rooted i) (obs (cold linkedDisk)) σ) ∈ rootedSlots i := by
  have root := root_ne_zero there
  have shallow : ext2Depth i ≤ 2 := by
    rcases two with rfl | rfl <;> decide
  have other : i ≠ 0 := by
    rcases two with rfl | rfl <;> decide
  have first : (rooted i).addrs i = 6 := by simp only [rooted,if_neg other,if_true]
  have above {r : Fin 15} {k : Fin 512} {path : List (Fin 512)} (there : ptr (rooted i) (obs (cold linkedDisk)) ⟨r,k :: path⟩ ≠ 0) :
      ptr (rooted i) (obs (cold linkedDisk)) ⟨r,path⟩ ≠ 0 := fun empty => there (if_pos empty)
  obtain ⟨r,path⟩ := σ
  by_cases direct : r = 0
  · subst direct
    obtain rfl := List.eq_nil_of_length_eq_zero (Nat.le_zero.mp within)
    exact List.mem_cons_self
  · have same : r = i := by
      by_contra different
      simp only [rooted,if_neg direct,if_neg different] at root
      exact root rfl
    subst same
    have second (k : Fin 512) : ptr (rooted r) (obs (cold linkedDisk)) ⟨r,[k]⟩ = if k = 0 then 7 else 0 := by
      rw [ptr,Slot.ptr_child_of_ne k (by rw [Slot.ptr_root,first]; decide),Slot.ptr_root,first]
      exact linkedDisk_entry.1 k
    have third (k : Fin 512) : ptr (rooted r) (obs (cold linkedDisk)) ⟨r,[k,0]⟩ = if k = 0 then 8 else 0 := by
      have seven := (second 0).trans (if_pos rfl)
      rw [ptr] at seven ⊢
      rw [Slot.ptr_child_of_ne k (by rw [seven]; decide),seven]
      exact linkedDisk_entry.2 k
    cases path with
    | nil => exact .tail _ (by rw [ptr,Slot.ptr_root,first]; exact .head _)
    | cons k path =>
      cases path with
      | nil =>
        rw [second k] at there ⊢
        split_ifs at there ⊢ with zero
        · subst zero
          exact .tail _ (.tail _ (.head _))
        · exact absurd rfl there
      | cons l path =>
        have long : path.length + 1 + 1 ≤ ext2Depth r := within
        obtain rfl := List.eq_nil_of_length_eq_zero (show path.length = 0 by omega)
        have zero : l = 0 := by
          by_contra different
          exact above there ((second l).trans (if_neg different))
        subst zero
        rw [third k] at there ⊢
        split_ifs at there ⊢ with zero
        · subst zero
          exact .tail _ (.tail _ (.tail _ (.head _)))
        · exact absurd rfl there

theorem rooted_tree {i : Fin 15} (two : i = 12 ∨ i = 13) :
    Tree stillMount (rooted i) (obs (cold linkedDisk)) := by
  have values : ∀ p ∈ rootedSlots i, p.2.toNat < stillMount.exs.blocksPerGroup.toNat ∧
      bit ((obs (cold linkedDisk)).view (bitmapAt (obs (cold linkedDisk)) 0)).byte (bitFor (obs (cold linkedDisk)) p.2) = true ∧
      p.2 ≠ 1 ∧ p.2 ≠ bitmapAt (obs (cold linkedDisk)) 0 := by
    simp only [rootedSlots,List.forall_mem_cons,List.not_mem_nil,false_imp_iff,implies_true,and_true]
    decide +kernel
  have value {σ : Place} (within : σ.Within ext2Depth) (there : ptr (rooted i) (obs (cold linkedDisk)) σ ≠ 0) :=
    values _ (rooted_ptr two within there)
  refine ⟨?_,fun σ within there => (value within there).1,fun σ within there => (value within there).2.1,
    fun σ within there => (value within there).2.2⟩
  intro σ τ within within' there same
  have nodup : ((rootedSlots i).map Prod.snd).Nodup := show [(5 : Blockno),6,7,8].Nodup by decide
  exact congrArg Prod.fst (List.inj_on_of_nodup_map nodup (rooted_ptr two within there)
    (rooted_ptr two within' (same ▸ there)) same)

theorem itrunc_frees_single : Truncates stillMount (rooted 12) (cold linkedDisk) := by
  have ground := linkedDisk_ground
  have tree := rooted_tree (.inl rfl)
  generalize cold linkedDisk = d at ground tree ⊢
  refine (itrunc_frees_tree_iff ground tree).mpr ⟨rfl,fun j => ?_⟩
  rw [ptr_entry]
  exact if_pos rfl

/-- The double-indirect block 6 has the entry 7. It is given back and made zero, and then block 0 is to be given back. -/
theorem itrunc_double_stops :
    Ground stillMount (obs (cold linkedDisk)) ∧
    Tree stillMount (rooted 13) (obs (cold linkedDisk)) ∧
    itrunc stillMount (rooted 13) (cold linkedDisk) = .error .outOfBounds ∧
    ¬Truncates stillMount (rooted 13) (cold linkedDisk) := by
  have stop : itrunc stillMount (rooted 13) (cold linkedDisk) = .error .outOfBounds :=
    stopped_eq_some (by decide +kernel)
  refine ⟨linkedDisk_ground,rooted_tree (.inr rfl),stop,?_⟩
  rintro ⟨ip',d',ran,-⟩
  rw [stop] at ran
  cases ran

end Xv6Ext2.Ext2
