import Mathlib
import Xv6Ext2.Ext2.Balloc
import Xv6Ext2.Lib.PtrTree

/-! The cached ext2 inode and `ext2_bmap`. The 15 block pointers of an inode and the pointers in its
indirect blocks form a tree; `ext2_bmap` reads one slot of it and allocates what is missing on the
way. Above block 523 the driver indexes the first pointer block again instead of the next one. -/
namespace Xv6Ext2.Ext2
open Lib Bio Function

inductive FileType where
  | free
  | dir
  | file
  | dev
  deriving DecidableEq, Repr

/-- The part of `struct inode` that belongs to the file, with the pointers of its `ext2_addrs`. -/
structure Inode where
  inum : UInt32
  type : FileType
  major : Int
  nlink : UInt16
  size : UInt32
  addrs : Fin 15 → Blockno
  deriving DecidableEq

def ndirBlocks : Nat := 12

theorem direct_lt {bn : Nat} (direct : bn < ndirBlocks) : bn < 15 := Nat.lt_trans direct (by decide)

def nindirect : Nat := bsize / 4

/-- `((uint *)bp->data)[k]` -/
def word (data : Block) (k : Nat) : Blockno := u32 data.byte (4 * k)

/-- `if ((addr = ad->addrs[i]) == 0) ad->addrs[i] = addr = ext2_balloc(ip->dev, ip->inum);` -/
def rootPointer (fs : Mount) (ip : Inode) (i : Fin 15) : K (Blockno × Inode) := do
  if ip.addrs i = 0 then
    let addr ← balloc fs ip.inum
    return (addr,{ip with addrs := update ip.addrs i addr})
  else
    return (ip.addrs i,ip)

/-- `if ((addr = a[k]) == 0) a[k] = addr = ext2_balloc(ip->dev, ip->inum);` for the data `a` of the
held buffer of block `b`; the buffer is not written. -/
def entryPointer (fs : Mount) (ip : Inode) (b : Blockno) (k : Nat) : K Blockno := do
  if k < nindirect then
    let a ← bdata b
    if word a k = 0 then
      let addr ← balloc fs ip.inum
      bset b ((← bdata b).setU32 (4 * k) addr)
      return addr
    else
      return word a k
  else
    fault .outOfBounds

/-- The single-indirect branch of `ext2_bmap`, with `bn` counted from the first indirect block. -/
def bmapSingle (fs : Mount) (ip : Inode) (bn : Nat) : K (Blockno × Inode) := do
  let (addr,ip) ← rootPointer fs ip 12
  bread fs.recycle addr
  let addr₁ ← entryPointer fs ip addr bn
  brelse addr
  return (addr₁,ip)

def bmapDouble (fs : Mount) (ip : Inode) (bn : Nat) : K (Blockno × Inode) := do
  let (addr,ip) ← rootPointer fs ip 13
  bread fs.recycle addr
  let addr₁ ← entryPointer fs ip addr (bn / nindirect)
  bread fs.recycle addr₁
  -- `b = (uint *)bp->data` and not `bp1->data`
  let addr₂ ← entryPointer fs ip addr (bn / nindirect)
  brelse addr₁
  brelse addr
  return (addr₂,ip)

def bmapTriple (fs : Mount) (ip : Inode) (bn : Nat) : K (Blockno × Inode) := do
  let (addr,ip) ← rootPointer fs ip 14
  bread fs.recycle addr
  let addr₁ ← entryPointer fs ip addr (bn / nindirect)
  bread fs.recycle addr₁
  -- `b` and `c` are `bp->data` too
  let addr₂ ← entryPointer fs ip addr (bn / nindirect)
  bread fs.recycle addr₂
  let addr₃ ← entryPointer fs ip addr (bn / nindirect)
  brelse addr₂
  brelse addr₁
  brelse addr
  return (addr₃,ip)

def bmap (fs : Mount) (ip : Inode) (bn : Nat) : K (Blockno × Inode) :=
  if h : bn < ndirBlocks then rootPointer fs ip ⟨bn,direct_lt h⟩
  else if bn - ndirBlocks < nindirect then bmapSingle fs ip (bn - ndirBlocks)
  else if bn - ndirBlocks - nindirect < nindirect * nindirect then
    bmapDouble fs ip (bn - ndirBlocks - nindirect)
  else if bn - ndirBlocks - nindirect - nindirect * nindirect < nindirect * nindirect * nindirect then
    bmapTriple fs ip (bn - ndirBlocks - nindirect - nindirect * nindirect)
  else fault (.panic "bmap: out of range")

abbrev Place := Slot (Fin 15) (Fin 512)

def entry (o : Obs) (b : Blockno) (k : Fin 512) : Blockno := word (o.view b) k

def ptr (ip : Inode) (o : Obs) : Place → Blockno := Slot.ptr ip.addrs (entry o)

/-- `gd.bg_inode_table + inode_off / (BSIZE / exs.s_inode_size)` -/
def tableBlock (fs : Mount) (gd : GroupDesc) (inum : UInt32) : Blockno :=
  gd.inodeTable +
    UInt32.ofNat ((inum - 1).toNat % fs.exs.inodesPerGroup.toNat / (bsize / fs.exs.inodeSize.toNat))

def tableOf (fs : Mount) (o : Obs) (inum : UInt32) : Blockno := tableBlock fs (desc o (groupNo fs inum)) inum

def Reserved (fs : Mount) (o : Obs) (inum : UInt32) (b : Blockno) : Prop :=
  b = 1 ∨ b = bitmapOf fs o inum ∨ b = tableOf fs o inum

/-- Bit `z` of the bitmap is clear and the scan reaches it, so that block `bitmapOf + z` may be handed out. -/
def Clear (fs : Mount) (o : Obs) (inum : UInt32) (z : Nat) : Prop :=
  z < scanLimit fs ∧ z < 8 * bsize ∧ bit (o.view (bitmapOf fs o inum)).byte z = false

instance (fs : Mount) (o : Obs) (inum : UInt32) (z : Nat) : Decidable (Clear fs o inum z) := by
  unfold Clear
  infer_instance

/-- The block pointers of an inode are well formed down to `depth`, and what the allocator would hand
out is not in use. -/
structure Wf (fs : Mount) (depth : Fin 15 → Nat) (ip : Inode) (o : Obs) : Prop where
  group : groupNo fs ip.inum < 64
  idle : ∀ b, o.held b = false
  bitmap_ne : bitmapOf fs o ip.inum ≠ 1
  table_ne : tableOf fs o ip.inum ≠ 1 ∧ tableOf fs o ip.inum ≠ bitmapOf fs o ip.inum
  distinct : Slot.Distinct depth (ptr ip o)
  plain : ∀ σ : Place, σ.Within depth → ptr ip o σ ≠ 0 → ¬Reserved fs o ip.inum (ptr ip o σ)
  fresh : ∀ z, Clear fs o ip.inum z →
    bitmapOf fs o ip.inum + UInt32.ofNat z ≠ 0 ∧
    ¬Reserved fs o ip.inum (bitmapOf fs o ip.inum + UInt32.ofNat z) ∧
    ∀ σ : Place, σ.Within depth → ptr ip o σ ≠ bitmapOf fs o ip.inum + UInt32.ofNat z

end Xv6Ext2.Ext2
