import Xv6Ext2.Ext2.Mapping

/-! Inodes on disk and the contents of files: `ext2_iupdate`, the loading half of `ext2_ilock`,
`ext2_readi` and `ext2_writei`. -/
namespace Xv6Ext2.Ext2
open Lib Bio

/-- `fill_ext2_fields` on the 128 bytes of a `struct ext2_inode`. -/
def fillExt2Fields (i : Bytes 128) : Bytes 128 :=
  i.setU32 20 0 |>.setU32 112 0 |>.setU32 104 0 |>.setU32 32 0 |>.setU32 100 0 |>.setU16 24 0
    |>.setU32 16 0 |>.setU32 108 0 |>.setU16 2 0 |>.setU32 8 0

/-- The record that `ext2_iupdate` makes of the one on disk. -/
def inodeRecord (ip : Inode) (old : Bytes 128) : Bytes 128 :=
  let mode := match ip.type with
    | .dir => old.setU16 0 0o040000
    | .file => old.setU16 0 0o100000
    | _ => old
  (fillExt2Fields ((mode.setU16 26 ip.nlink).setU32 4 ip.size)).patch 40 60
    (fun j => leByte (ip.addrs (Fin.ofNat 15 (j / 4))).toNat (j % 4))

def inodeOffset (fs : Mount) (inum : UInt32) : Nat :=
  (inum - 1).toNat % fs.exs.inodesPerGroup.toNat % (bsize / fs.exs.inodeSize.toNat) * fs.exs.inodeSize.toNat

def recordAt (data : Block) (off : Nat) : Bytes 128 := fun i => data.byte (off + i.val)

def iupdate (fs : Mount) (ip : Inode) : K Unit := do
  bread fs.recycle 1
  let gd ← descIn (← bdata 1) (groupNo fs ip.inum)
  let blocknum := tableBlock fs gd ip.inum
  bread fs.recycle blocknum
  let data ← bdata blocknum
  let off := inodeOffset fs ip.inum
  bset blocknum (data.patch off 128 (inodeRecord ip (recordAt data off)).byte)
  bwrite blocknum
  brelse 1
  brelse blocknum

/-- `S_ISDIR(mode) || mode == T_DIR`, `S_ISREG(mode) || mode == T_FILE`, else the type stays. -/
def modeType (mode : UInt16) (old : FileType) : FileType :=
  if mode &&& 0o170000 = 0o040000 ∨ mode = 1 then .dir
  else if mode &&& 0o170000 = 0o100000 ∨ mode = 2 then .file
  else old

/-- `ext2_ilock` of an entry that is not valid, once it has the sleep-lock. -/
def ilock (fs : Mount) (ip : Inode) : K Inode := do
  bread fs.recycle 1
  let gd ← descIn (← bdata 1) (groupNo fs ip.inum)
  brelse 1
  let blocknum := tableBlock fs gd ip.inum
  bread fs.recycle blocknum
  let i := recordAt (← bdata blocknum) (inodeOffset fs ip.inum)
  brelse blocknum
  let type := modeType (u16 i.byte 0) ip.type
  if type = .free then fault (.panic "ilock: no type")
  else return ⟨ip.inum,type,0,u16 i.byte 26,u32 i.byte 4,fun k => u32 i.byte (40 + 4 * k.val)⟩

def ndev : Int := 10

/-- The bits of the `int` -1. -/
def minusOne : UInt32 := 0xffffffff

/-- The loop of `ext2_readi`, with `fuel` bounding its rounds. -/
def readLoop (fs : Mount) : Nat → Inode → (Nat → UInt8) → Nat → Nat → Nat → K ((Nat → UInt8) × Inode)
  | 0, ip, dst, tot, _, n => if tot < n then fault .diverges else pure (dst,ip)
  | fuel + 1, ip, dst, tot, off, n =>
    if tot < n then do
      let (addr,ip) ← bmap fs ip (off / bsize)
      bread fs.recycle addr
      let data ← bdata addr
      let m := min (n - tot) (bsize - off % bsize)
      brelse addr
      readLoop fs fuel ip (poke dst tot m (fun j => data.byte (off % bsize + j))) (tot + m) (off + m) n
    else pure (dst,ip)

def readi (fs : Mount) (ip : Inode) (dst : Nat → UInt8) (off n : UInt32) :
    K (UInt32 × (Nat → UInt8) × Inode) :=
  if ip.type = .dev then
    if ip.major < 0 ∨ ndev ≤ ip.major then pure (minusOne,dst,ip)
    else match fs.devRead ip.major.toNat with
      | none => pure (minusOne,dst,ip)
      | some read => pure ((read dst n).1,(read dst n).2,ip)
  else if ip.size < off ∨ off + n < off then pure (minusOne,dst,ip)
  else do
    let n := if ip.size < off + n then ip.size - off else n
    let (dst,ip) ← readLoop fs n.toNat ip dst 0 off.toNat n.toNat
    return (n,dst,ip)

def writeLoop (fs : Mount) : Nat → Inode → (Nat → UInt8) → Nat → Nat → Nat → K Inode
  | 0, ip, _, tot, _, n => if tot < n then fault .diverges else pure ip
  | fuel + 1, ip, src, tot, off, n =>
    if tot < n then do
      let (addr,ip) ← bmap fs ip (off / bsize)
      bread fs.recycle addr
      let m := min (n - tot) (bsize - off % bsize)
      bset addr ((← bdata addr).patch (off % bsize) m (fun j => src (tot + j)))
      bwrite addr
      brelse addr
      writeLoop fs fuel ip src (tot + m) (off + m) n
    else pure ip

/-- `EXT2_MAXFILE * BSIZE` in 32 bits. -/
def maxFileBytes : UInt32 :=
  UInt32.ofNat (nindirect + nindirect * nindirect + nindirect * nindirect * nindirect) * UInt32.ofNat bsize

def writei (fs : Mount) (ip : Inode) (src : Nat → UInt8) (off n : UInt32) : K (UInt32 × Inode) :=
  if ip.type = .dev then
    if ip.major < 0 ∨ ndev ≤ ip.major then pure (minusOne,ip)
    else match fs.devWrite ip.major.toNat with
      | none => pure (minusOne,ip)
      | some write => pure (write src n,ip)
  else if ip.size < off ∨ off + n < off then pure (minusOne,ip)
  else if maxFileBytes < off + n then pure (minusOne,ip)
  else do
    let ip ← writeLoop fs n.toNat ip src 0 off.toNat n.toNat
    if 0 < n ∧ ip.size < off + n then
      let ip := {ip with size := off + n}
      iupdate fs ip
      return (n,ip)
    else
      return (n,ip)

end Xv6Ext2.Ext2
