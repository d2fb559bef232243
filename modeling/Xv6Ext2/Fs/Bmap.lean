import Mathlib
import Xv6Ext2.Fs.Bitmap
import Xv6Ext2.Lib.PtrTree

/-! The block pointers of all inodes, and `bmap`. Twelve pointers of an inode lead to data, the thirteenth
to a block of pointers. The pointers of all inodes together make one tree, in which no block may stand
twice. -/
namespace Xv6Ext2.Fs
open Lib Bio Log Function

/-- The part of `struct inode` that belongs to the file, with the pointers of its `addrs`. The fields of
type `short` are kept as their bits. -/
structure Inode where
  inum : UInt32
  type : UInt16
  major : UInt16
  minor : UInt16
  nlink : UInt16
  size : UInt32
  addrs : Fin 13 → Blockno
  deriving DecidableEq

def tDir : UInt16 := 1

def tFile : UInt16 := 2

def tDev : UInt16 := 3

def ndirect : Nat := 12

def nindirect : Nat := bsize / 4

theorem direct_lt {bn : Nat} (direct : bn < ndirect) : bn < 13 := Nat.lt_trans direct (by decide)

def maxfile : Nat := ndirect + nindirect

/-- `((uint*)bp->data)[k]` -/
def word (data : Block) (k : Nat) : Blockno := u32 data.byte (4 * k)

/-- `if((addr = ad->addrs[i]) == 0) ad->addrs[i] = addr = balloc(ip->dev);` -/
def rootPointer (fs : Volume) (ip : Inode) (i : Fin 13) : P (Blockno × Inode) := do
  if ip.addrs i = 0 then
    let addr ← balloc fs
    return (addr,{ip with addrs := update ip.addrs i addr})
  else
    return (ip.addrs i,ip)

def entryPointer (fs : Volume) (addr : Blockno) (k : Nat) : P Blockno := do
  bread fs addr
  let a ← bdata addr
  if word a k = 0 then
    let new ← balloc fs
    bset addr ((← bdata addr).setU32 (4 * k) new)
    logWrite addr
    brelse addr
    return new
  else
    brelse addr
    return word a k

def bmap (fs : Volume) (ip : Inode) (bn : Nat) : P (Blockno × Inode) :=
  if h : bn < ndirect then rootPointer fs ip ⟨bn,direct_lt h⟩
  else if bn - ndirect < nindirect then do
    let (addr,ip) ← rootPointer fs ip 12
    let addr ← entryPointer fs addr (bn - ndirect)
    return (addr,ip)
  else fault (.panic "bmap: out of range")

abbrev Files := UInt32 → Inode

abbrev Place := Slot (UInt32 × Fin 13) (Fin 512)

def depth (root : UInt32 × Fin 13) : Nat := if root.2 = 12 then 1 else 0

def entry (v : Blockno → Block) (b : Blockno) (k : Fin 512) : Blockno := word (v b) k

def roots (F : Files) (root : UInt32 × Fin 13) : Blockno := (F root.1).addrs root.2

def ptr (F : Files) (v : Blockno → Block) : Place → Blockno := Slot.ptr (roots F) (entry v)

def slot (i : UInt32) (bn : Nat) : Place :=
  if h : bn < ndirect then ⟨(i,⟨bn,direct_lt h⟩),[]⟩ else ⟨(i,12),[Fin.ofNat 512 (bn - ndirect)]⟩

/-- Blocks that hold pointers or contents of files lie behind the bitmap and are marked there, as the
metadata is, and no two slots share one. -/
structure Owned (fs : Volume) (F : Files) (v : Blockno → Block) : Prop where
  distinct : Slot.Distinct depth (ptr F v)
  data : ∀ σ : Place, σ.Within depth → ptr F v σ ≠ 0 →
    fs.sb.bmapstart.toNat < (ptr F v σ).toNat ∧ (ptr F v σ).toNat < fs.sb.size.toNat
  marked : ∀ σ : Place, σ.Within depth → ptr F v σ ≠ 0 → used fs v (ptr F v σ).toNat = true
  reserved : ∀ z, z ≤ fs.sb.bmapstart.toNat → used fs v z = true

/-- Number of blocks that `balloc` can hand out. -/
def space (fs : Volume) (v : Blockno → Block) : Nat :=
  ((Finset.range fs.sb.size.toNat).filter (fun z => used fs v z = false)).card

section

variable {fs : Volume} {F F' F₁ : Files} {v v' v₁ : Blockno → Block} {i : UInt32} {b : Blockno}

theorem slot_leaf (i : UInt32) (bn : Nat) : Slot.Leaf depth (slot i bn) := by
  unfold slot
  split_ifs with direct
  · have other : (⟨bn,direct_lt direct⟩ : Fin 13) ≠ 12 := by
      intro same
      have values := congrArg Fin.val same
      exact absurd direct (by simp only [ndirect] at *; simp at values; omega)
    rw [Slot.Leaf,depth,if_neg other]
    rfl
  · rfl

theorem slot_inj {i j : UInt32} {bn other : Nat} (near : bn < maxfile) (near' : other < maxfile)
    (same : slot i bn = slot j other) : i = j ∧ bn = other := by
  have words : nindirect = 512 := rfl
  simp only [maxfile,ndirect,words] at near near'
  rw [slot,slot] at same
  split_ifs at same
  · simpa using same
  · simp at same
  · simp at same
  · have index : i = j ∧ Fin.ofNat 512 (bn - ndirect) = Fin.ofNat 512 (other - ndirect) := by simpa using same
    have values := congrArg Fin.val index.2
    simp only [ndirect] at *
    rw [Fin.val_ofNat,Fin.val_ofNat,Nat.mod_eq_of_lt (by omega),Nat.mod_eq_of_lt (by omega)] at values
    exact ⟨index.1,by omega⟩

theorem slot_root (i : UInt32) (bn : Nat) : (slot i bn).root.1 = i := by
  unfold slot
  split_ifs <;> rfl

namespace Owned

theorem ne_bitmap (owned : Owned fs F v) {σ : Place} (within : σ.Within depth) (present : ptr F v σ ≠ 0) :
    ptr F v σ ≠ fs.sb.bmapstart := by
  intro same
  have behind := (owned.data σ within present).1
  rw [same] at behind
  exact Nat.lt_irrefl _ behind

theorem free_ne (owned : Owned fs F v) (free : Free fs v b) {σ : Place} (within : σ.Within depth) :
    ptr F v σ ≠ b := by
  intro same
  have clear := free.2
  by_cases empty : ptr F v σ = 0
  · have zero : b.toNat = 0 := by rw [← same,empty]; rfl
    rw [owned.reserved b.toNat (by omega)] at clear
    cases clear
  · rw [← same,owned.marked σ within empty] at clear
    cases clear

theorem free_data (owned : Owned fs F v) (free : Free fs v b) : fs.sb.bmapstart.toNat < b.toNat := by
  by_contra low
  have clear := free.2
  rw [owned.reserved b.toNat (by omega)] at clear
  cases clear

theorem free_home (owned : Owned fs F v) (free : Free fs v b) : fs.sb.inodestart.toNat ≤ b.toNat := by
  have behind := owned.free_data free
  have order := fs.inodestart_lt
  omega

theorem data_home (owned : Owned fs F v) {σ : Place} (within : σ.Within depth) (present : ptr F v σ ≠ 0) :
    fs.sb.inodestart.toNat ≤ (ptr F v σ).toNat := by
  have behind := (owned.data σ within present).1
  have order := fs.inodestart_lt
  omega

theorem free_bitmap (owned : Owned fs F v) (free : Free fs v b) : b ≠ fs.sb.bmapstart := by
  intro same
  have behind := owned.free_data free
  rw [same] at behind
  exact Nat.lt_irrefl _ behind

theorem free_pos (owned : Owned fs F v) (free : Free fs v b) : b ≠ 0 := by
  rintro rfl
  exact absurd (owned.free_data free) (Nat.not_lt_zero _)

theorem leaf_apart (owned : Owned fs F v) {σ ρ : Place} (leaf : σ.Leaf depth) (inner : ρ.Inner depth)
    (there : ptr F v ρ ≠ 0) : ptr F v ρ ≠ ptr F v σ := by
  intro same
  have slots := owned.distinct ρ σ inner.within leaf.within there same
  rw [slots] at inner
  exact absurd leaf (Nat.ne_of_lt inner)

end Owned

end

end Xv6Ext2.Fs
