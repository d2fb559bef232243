import Xv6Ext2.Fs.Directory

/-! mkfs: it writes a file system with the root, the directory `mnt` and one file for each of its arguments into an
image file of the host. Inodes and blocks come from two counters. -/
namespace Xv6Ext2.Mkfs
open Lib Bio Log Fs Function

def ninodes : Nat := 200

def nbitmap : Nat := fssize / bpb + 1

def ninodeblocks : Nat := ninodes / ipb + 1

def nlog : Nat := logsize

def nmeta : Nat := 2 + nlog + ninodeblocks + nbitmap

def nblocks : Nat := fssize - nmeta

def sb : Superblock where
  size := UInt32.ofNat fssize
  ninodes := UInt32.ofNat ninodes
  nlog := UInt32.ofNat nlog
  logstart := 2
  inodestart := UInt32.ofNat (2 + nlog)
  bmapstart := UInt32.ofNat (2 + nlog + ninodeblocks)

/-- How mkfs ends apart from `exit(0)`: `exit(1)`, an assertion, or a loop that has not ended. -/
inductive Exit where
  | one
  | abort
  | diverges
  deriving DecidableEq

structure Host where
  image : Blockno → Block
  length : Nat
  freeinode : UInt32
  freeblock : UInt32

abbrev H := Exec Exit Host

def rsect (sec : Blockno) : H Block := fun h => if sec.toNat < h.length then .ok (h.image sec,h) else .error .one

def wsect (sec : Blockno) (buf : Block) : H Unit := fun h =>
  .ok ((),{h with image := update h.image sec buf, length := max h.length (sec.toNat + 1)})

/-- `IBLOCK(inum, sb)` -/
def iblock (inum : UInt32) : Blockno := UInt32.ofNat (inum.toNat / ipb) + sb.inodestart

def winode (inum : UInt32) (ip : Inode) : H Unit := do
  let buf ← rsect (iblock inum)
  wsect (iblock inum) (buf.patch (ioffset inum) 64 (dinode ip).byte)

def rinode (inum : UInt32) : H Inode := do
  let buf ← rsect (iblock inum)
  return inodeAt inum buf (ioffset inum)

/-- `freeinode++` -/
def nextInode : H UInt32 := fun h => .ok (h.freeinode,{h with freeinode := h.freeinode + 1})

/-- `freeblock++` -/
def nextBlock : H Blockno := fun h => .ok (h.freeblock,{h with freeblock := h.freeblock + 1})

def ialloc (type : UInt16) : H UInt32 := do
  let inum ← nextInode
  winode inum ⟨inum,type,0,0,1,0,fun _ => 0⟩
  return inum

def bitmap (used : Nat) : Block := (List.range used).foldl Bytes.setBit (Bytes.zero bsize)

def balloc (used : Nat) : H Unit := if used < bpb then wsect sb.bmapstart (bitmap used) else fault .abort

/-- The block that `iappend` finds or makes for block `fbn` of the file. -/
def appendBlock (din : Inode) (fbn : Nat) : H (Blockno × Inode) :=
  if direct : fbn < ndirect then
    let k : Fin 13 := ⟨fbn,direct_lt direct⟩
    if din.addrs k = 0 then do
      let b ← nextBlock
      return (b,{din with addrs := update din.addrs k b})
    else return (din.addrs k,din)
  else do
    let din ← (if din.addrs 12 = 0 then do
        let b ← nextBlock
        return {din with addrs := update din.addrs 12 b}
      else return din)
    let indirect ← rsect (din.addrs 12)
    if word indirect (fbn - ndirect) = 0 then
      let b ← nextBlock
      wsect (din.addrs 12) (indirect.setU32 (4 * (fbn - ndirect)) b)
      return (b,din)
    else return (word indirect (fbn - ndirect),din)

/-- The loop of `iappend`: `n` bytes from `p` on go to byte `off`, with `fuel` bounding its rounds. -/
def appendLoop : Nat → Inode → Nat → (Nat → UInt8) → Nat → H (Inode × Nat)
  | 0, din, off, _, n => if 0 < n then fault .diverges else return (din,off)
  | fuel + 1, din, off, p, n =>
    if 0 < n then
      let fbn := off / bsize
      if fbn < maxfile then do
        let (x,din) ← appendBlock din fbn
        let n1 := min n ((fbn + 1) * bsize - off)
        let buf ← rsect x
        wsect x (buf.patch (off - fbn * bsize) n1 p)
        appendLoop fuel din (off + n1) (fun j => p (n1 + j)) (n - n1)
      else fault .abort
    else return (din,off)

def iappend (inum : UInt32) (p : Nat → UInt8) (n : Nat) : H Unit := do
  let din ← rinode inum
  let (din,off) ← appendLoop n din din.size.toNat p n
  winode inum {din with size := UInt32.ofNat off}

/-- The `struct dirent` of a name; the rest of the record is zero. -/
def dirent (inum : UInt32) (name : List UInt8) : Nat → UInt8 :=
  Dirent.setInum (strncpy (fun _ => 0) 2 (cstring name) dirsiz) inum

/-- What one `read` of the host returns. -/
structure Chunk where
  bytes : List UInt8
  positive : 0 < bytes.length
  fits : bytes.length ≤ bsize

/-- An argument of mkfs: a string, whether there is such a file, and how its bytes are read. -/
structure Input where
  arg : List UInt8
  proper : 0 ∉ arg
  opens : Bool
  chunks : List Chunk

namespace Input

/-- The name in the image: a leading `_` is left out. -/
def name (f : Input) : List UInt8 := if f.arg.head? = some 95 then f.arg.tail else f.arg

def bytes (f : Input) : List UInt8 := f.chunks.flatMap Chunk.bytes

end Input

def rootino : UInt32 := 1

def addFile (f : Input) : H Unit := do
  if 47 ∈ f.arg then fault .abort
  else if f.opens = false then fault .one
  else
    let inum ← ialloc tFile
    iappend rootino (dirent inum f.name) 16
    f.chunks.forM fun c => iappend inum (cstring c.bytes) c.bytes.length

/-- The superblock as it stands in block 1. -/
def superblock : Block :=
  (Bytes.zero bsize).setU32 0 sb.size |>.setU32 4 (UInt32.ofNat nblocks) |>.setU32 8 sb.ninodes |>.setU32 12 sb.nlog
    |>.setU32 16 sb.logstart |>.setU32 20 sb.inodestart |>.setU32 24 sb.bmapstart

/-- `.`, `..` and `mnt` -/
def dot : List UInt8 := [46]

def dotdot : List UInt8 := [46,46]

def mnt : List UInt8 := [109,110,116]

/-- The directories that every image has. -/
def makeDirs : H Unit := do
  let root ← ialloc tDir
  if root ≠ rootino then fault .abort
  else
    iappend root (dirent root dot) 16
    iappend root (dirent root dotdot) 16
    let dir ← ialloc tDir
    iappend root (dirent dir mnt) 16
    iappend dir (dirent dir dot) 16
    iappend dir (dirent root dotdot) 16

/-- The size of the root is set to the end of a block. -/
def fixRoot : H Unit := do
  let din ← rinode rootino
  winode rootino {din with size := UInt32.ofNat ((din.size.toNat / bsize + 1) * bsize)}

def freeblock : H UInt32 := fun h => .ok (h.freeblock,h)

def main (inputs : List Input) : H Unit := do
  (List.range fssize).forM fun i => wsect (UInt32.ofNat i) (Bytes.zero bsize)
  wsect 1 superblock
  makeDirs
  inputs.forM addFile
  fixRoot
  let used ← freeblock
  balloc used.toNat

/-- The image file is empty, and `freeblock` is the first data block. -/
def start : Host := ⟨fun _ => Bytes.zero bsize,0,1,UInt32.ofNat nmeta⟩

end Xv6Ext2.Mkfs
