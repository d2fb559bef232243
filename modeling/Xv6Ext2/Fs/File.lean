import Xv6Ext2.Fs.Growth

/-! Inodes on disk and the contents of files: `iupdate`, the loading half of `ilock`, `itrunc`,
`readi` and `writei`. -/
namespace Xv6Ext2.Fs
open Lib Bio Log Function

/-- `IBLOCK(i, sb)` -/
def iblock (fs : Volume) (inum : UInt32) : Blockno := UInt32.ofNat (inum.toNat / ipb) + fs.sb.inodestart

/-- Offset of `(struct dinode*)bp->data + inum%IPB`. -/
def ioffset (inum : UInt32) : Nat := 64 * (inum.toNat % ipb)

/-- The `struct dinode` of an inode. -/
def dinode (ip : Inode) : Bytes 64 :=
  ((Bytes.zero 64).setU16 0 ip.type |>.setU16 2 ip.major |>.setU16 4 ip.minor |>.setU16 6 ip.nlink
    |>.setU32 8 ip.size).patch 12 52 (fun j => leByte (ip.addrs (Fin.ofNat 13 (j / 4))).toNat (j % 4))

/-- The inode whose `struct dinode` is at `off`. -/
def inodeAt (inum : UInt32) (data : Block) (off : Nat) : Inode where
  inum := inum
  type := u16 data.byte off
  major := u16 data.byte (off + 2)
  minor := u16 data.byte (off + 4)
  nlink := u16 data.byte (off + 6)
  size := u32 data.byte (off + 8)
  addrs k := u32 data.byte (off + 12 + 4 * k.val)

def diskInode (fs : Volume) (v : Blockno → Block) (inum : UInt32) : Inode :=
  inodeAt inum (v (iblock fs inum)) (ioffset inum)

def blankInode (inum : UInt32) (type : UInt16) : Inode := ⟨inum,type,0,0,0,0,fun _ => 0⟩

def iupdate (fs : Volume) (ip : Inode) : P Unit := do
  bread fs (iblock fs ip.inum)
  bset (iblock fs ip.inum) ((← bdata (iblock fs ip.inum)).patch (ioffset ip.inum) 64 (dinode ip).byte)
  logWrite (iblock fs ip.inum)
  brelse (iblock fs ip.inum)

/-- `ilock` of an entry that is not valid, once it has the sleep-lock. -/
def loadInode (fs : Volume) (inum : UInt32) : P Inode := do
  bread fs (iblock fs inum)
  let ip := inodeAt inum (← bdata (iblock fs inum)) (ioffset inum)
  brelse (iblock fs inum)
  if ip.type = 0 then fault (.panic "ilock: no type") else return ip

/-- One round of the first loop of `itrunc`. -/
def freeDirect (fs : Volume) (ip : Inode) (k : Fin 13) : P Inode :=
  if ip.addrs k ≠ 0 then do
    bfree fs (ip.addrs k)
    return {ip with addrs := update ip.addrs k 0}
  else return ip

def freeEntry (fs : Volume) (b : Blockno) (j : Nat) : P Unit := do
  let a ← bdata b
  if word a j ≠ 0 then bfree fs (word a j) else pure ()

def freeIndirect (fs : Volume) (ip : Inode) : P Inode :=
  if ip.addrs 12 ≠ 0 then do
    bread fs (ip.addrs 12)
    (List.range nindirect).forM (freeEntry fs (ip.addrs 12))
    brelse (ip.addrs 12)
    bfree fs (ip.addrs 12)
    return {ip with addrs := update ip.addrs 12 0}
  else return ip

def itrunc (fs : Volume) (ip : Inode) : P Inode := do
  let ip ← ((List.finRange 13).take ndirect).foldlM (freeDirect fs) ip
  let ip ← freeIndirect fs ip
  let ip := {ip with size := 0}
  iupdate fs ip
  return ip

def ndev : Nat := 10

/-- The bits of the `int` -1. -/
def minusOne : UInt32 := 0xffffffff

/-- `devsw[ip->major]`, unless `ip->major < 0 || ip->major >= NDEV`. -/
def device {α : Type} (table : Nat → Option α) (major : UInt16) : Option α :=
  if major.toNat < ndev then table major.toNat else none

/-- `off > ip->size || off + n < off` -/
def Beyond (ip : Inode) (off n : UInt32) : Prop := ip.size < off ∨ off + n < off

instance (ip : Inode) (off n : UInt32) : Decidable (Beyond ip off n) := inferInstanceAs (Decidable (_ ∨ _))

/-- The loop of `readi`, with `fuel` bounding its rounds. -/
def readLoop (fs : Volume) : Nat → Inode → (Nat → UInt8) → Nat → Nat → Nat → P ((Nat → UInt8) × Inode)
  | 0, ip, dst, tot, _, n => if tot < n then fault .diverges else pure (dst,ip)
  | fuel + 1, ip, dst, tot, off, n =>
    if tot < n then do
      let (addr,ip) ← bmap fs ip (off / bsize)
      bread fs addr
      let data ← bdata addr
      let m := min (n - tot) (bsize - off % bsize)
      brelse addr
      readLoop fs fuel ip (poke dst tot m (fun j => data.byte (off % bsize + j))) (tot + m) (off + m) n
    else pure (dst,ip)

def readi (fs : Volume) (ip : Inode) (dst : Nat → UInt8) (off n : UInt32) : P (UInt32 × (Nat → UInt8) × Inode) :=
  if ip.type = tDev then
    match device fs.devRead ip.major with
    | none => pure (minusOne,dst,ip)
    | some read => pure ((read dst n).1,(read dst n).2,ip)
  else if Beyond ip off n then pure (minusOne,dst,ip)
  else do
    let n := if ip.size < off + n then ip.size - off else n
    let (dst,ip) ← readLoop fs n.toNat ip dst 0 off.toNat n.toNat
    return (n,dst,ip)

def writeLoop (fs : Volume) : Nat → Inode → (Nat → UInt8) → Nat → Nat → Nat → P Inode
  | 0, ip, _, tot, _, n => if tot < n then fault .diverges else pure ip
  | fuel + 1, ip, src, tot, off, n =>
    if tot < n then do
      let (addr,ip) ← bmap fs ip (off / bsize)
      bread fs addr
      let m := min (n - tot) (bsize - off % bsize)
      bset addr ((← bdata addr).patch (off % bsize) m (fun j => src (tot + j)))
      logWrite addr
      brelse addr
      writeLoop fs fuel ip src (tot + m) (off + m) n
    else pure ip

/-- `MAXFILE*BSIZE` -/
def maxFileBytes : UInt32 := UInt32.ofNat (maxfile * bsize)

def writei (fs : Volume) (ip : Inode) (src : Nat → UInt8) (off n : UInt32) : P (UInt32 × Inode) :=
  if ip.type = tDev then
    match device fs.devWrite ip.major with
    | none => pure (minusOne,ip)
    | some write => pure (write src n,ip)
  else if Beyond ip off n then pure (minusOne,ip)
  else if maxFileBytes < off + n then pure (minusOne,ip)
  else do
    let ip ← writeLoop fs n.toNat ip src 0 off.toNat n.toNat
    if 0 < n ∧ ip.size < off + n then
      let ip := {ip with size := off + n}
      iupdate fs ip
      return (n,ip)
    else
      return (n,ip)

end Xv6Ext2.Fs
