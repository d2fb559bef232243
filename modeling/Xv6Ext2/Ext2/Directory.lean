import Xv6Ext2.Ext2.FileCalls
import Xv6Ext2.Lib.CString

/-! `ext2_dirlookup`, `ext2_dirlink` and `ext2_unlink`. A `struct ext2_dir_entry_2` on the stack is
the memory from its address on; what a function finds there when it starts is an argument. -/
namespace Xv6Ext2.Ext2
open Lib Bio Function

/-- `sizeof(struct ext2_dir_entry_2)`: 8 bytes, 255 bytes of name and one of padding. -/
def direntSize : UInt32 := 264

/-- `EXT2_NAME_LEN` -/
def maxName : Nat := 255

abbrev Memory := Nat → UInt8

namespace Dirent

def inode (de : Memory) : UInt32 := u32 de 0

def recLen (de : Memory) : UInt32 := (u16 de 4).toUInt32

def nameLen (de : Memory) : Nat := (de 6).toNat

def setInode (de : Memory) (v : UInt32) : Memory := poke de 0 4 (leByte v.toNat)

def setRecLen (de : Memory) (v : Nat) : Memory := poke de 4 2 (leByte v)

def setNameLen (de : Memory) (v : Nat) : Memory := poke de 6 1 (leByte v)

theorem recLen_setRecLen (de : Memory) {v : Nat} (small : v < 65536) : (recLen (setRecLen de v)).toNat = v := by
  have value : (UInt16.ofNat v).toNat = v := Nat.mod_eq_of_lt small
  rw [recLen,UInt16.toNat_toUInt32,u16_stored _ 4 (UInt16.ofNat v),value]
  intro i bound
  rw [setRecLen,poke_inside _ _ _ _ bound,value]

end Dirent

/-- `readi(dp, (char *)&de, off, sizeof(de))`, with a panic if the record is cut off. -/
def readRecord (fs : Mount) (dp : Inode) (de : Memory) (off : UInt32) (message : String) : K (Memory × Inode) := do
  let (count,de,dp) ← readi fs dp de off direntSize
  if count = direntSize then return (de,dp) else fault (.panic message)

/-- `writei(dp, (char *)&de, off, n)`, with a panic if not all of it is written. -/
def writeRecord (fs : Mount) (dp : Inode) (de : Memory) (off n : UInt32) (message : String) : K Inode := do
  let (count,dp) ← writei fs dp de off n
  if count = n then return dp else fault (.panic message)

/-- The loop of `ext2_dirlookup`: the inode number and the offset of the entry that matches. -/
def lookupLoop (fs : Mount) (name : Memory) :
    Nat → Inode → UInt32 → Memory → Memory → K (Option (UInt32 × UInt32) × Inode)
  | 0, dp, off, _, _ => if off < dp.size then fault .diverges else pure (none,dp)
  | fuel + 1, dp, off, de, fname =>
    if off < dp.size then do
      let (de,dp) ← readRecord fs dp de off "dirlookup read"
      if Dirent.inode de = 0 then lookupLoop fs name fuel dp (off + Dirent.recLen de) de fname
      else
        let fname := update (strncpy fname 0 (fun i => de (8 + i)) (Dirent.nameLen de)) (Dirent.nameLen de) 0
        if strncmp name fname maxName = 0 then return (some (Dirent.inode de,off),dp)
        else lookupLoop fs name fuel dp (off + Dirent.recLen de) de fname
    else pure (none,dp)

/-- `ext2_dirlookup`, up to the `iget` of the inode it found. -/
def dirlookup (fs : Mount) (dp : Inode) (name de fname : Memory) : K (Option (UInt32 × UInt32) × Inode) :=
  lookupLoop fs name dp.size.toNat dp 0 de fname

/-- `ext2_dirlink` cuts a record off behind its name and goes on to the space behind it. -/
def cutRecord (fs : Mount) (dp : Inode) (off : UInt32) (de : Memory) : K (UInt32 × Memory × Inode) := do
  let de := Dirent.setRecLen de (direntSize.toNat - maxName + Dirent.nameLen de)
  let dp ← writeRecord fs dp de off direntSize "ext2_dirlink write"
  let off := off + Dirent.recLen de
  let (de,dp) ← readRecord fs dp de off "ext2_dirlink read 2"
  return (off,de,dp)

/-- The loop of `ext2_dirlink` that looks for space behind the last record of a block; it returns the
offset of the space, or the end of the directory. -/
def spaceLoop (fs : Mount) : Nat → Inode → UInt32 → Memory → K (UInt32 × Memory × Inode)
  | 0, dp, off, de => if off < dp.size then fault .diverges else pure (off,de,dp)
  | fuel + 1, dp, off, de =>
    if off < dp.size then do
      let (de,dp) ← readRecord fs dp de off "ext2_dirlink read 1"
      if direntSize < Dirent.recLen de ∧ (Dirent.recLen de).toNat = bsize - off.toNat % bsize then
        cutRecord fs dp off de
      else spaceLoop fs fuel dp (off + Dirent.recLen de) de
    else pure (off,de,dp)

/-- `strncpy(de.name, name, EXT2_NAME_LEN); de.name_len = strlen(de.name); de.inode = inum;` -/
def fillRecord (de name : Memory) (inum : UInt32) : K Memory :=
  let de := strncpy de 8 name maxName
  match strlen (fun i => de (8 + i)) (direntSize.toNat - 8) with
  | some len => pure (Dirent.setInode (Dirent.setNameLen de len) inum)
  | none => fault .outOfBounds

def resize (fs : Mount) (dp : Inode) (size : UInt32) : K Inode := do
  let dp := {dp with size := size}
  iupdate fs dp
  return dp

def appendRecord (fs : Mount) (dp : Inode) (off : UInt32) (de : Memory) : K Inode := do
  let de := Dirent.setRecLen de bsize
  let dp ← resize fs dp (off + Dirent.recLen de)
  writeRecord fs dp de off direntSize "ext2_dirlink write"

/-- The record takes the rest of its block, and the bytes behind it on the stack are written too. -/
def insertRecord (fs : Mount) (dp : Inode) (off : UInt32) (de : Memory) : K Inode := do
  let de := Dirent.setRecLen de (bsize - off.toNat % bsize)
  let dp ← resize fs dp (off + Dirent.recLen de)
  writeRecord fs dp de off (Dirent.recLen de) "dirlink"

/-- `ext2_dirlink`. The caller holds the lock of `dp`. An entry that `ext2_dirlookup` just got from
`iget` was either there with another reference or is not valid, so that `ext2_iput` only takes its
lock, gives it back and drops the reference; if the entry is `dp` it waits for its own lock. -/
def dirlink (fs : Mount) (dp : Inode) (name : Memory) (inum : UInt32) (de lookupDe lookupName : Memory) :
    K (Int × Inode) := do
  let (found,dp) ← dirlookup fs dp name lookupDe lookupName
  match found with
  | some (other,_) => if other = dp.inum then fault .deadlock else return (-1,dp)
  | none =>
    let (off,de,dp) ← spaceLoop fs dp.size.toNat dp 0 de
    let de ← fillRecord de name inum
    let dp ← if off = dp.size then appendRecord fs dp off de else insertRecord fs dp off de
    return (0,dp)

def unlink (fs : Mount) (dp : Inode) (off : UInt32) (de de1 : Memory) : K Inode := do
  let (de1,dp) ← readRecord fs dp de1 off "dirlookup read"
  let de := Dirent.setRecLen (poke de 0 direntSize.toNat (fun _ => 0)) (Dirent.recLen de1).toNat
  writeRecord fs dp de off (Dirent.recLen de1) "unlink: writei"

/-- `namecmp(".", de.name) == 0 || namecmp("..", de.name) == 0`, which compare at most DIRSIZ bytes. -/
def dotName (de : Memory) : Bool :=
  strncmp (cstring [46]) (fun i => de (8 + i)) 14 = 0 ∨ strncmp (cstring [46,46]) (fun i => de (8 + i)) 14 = 0

def emptyLoop (fs : Mount) : Nat → Inode → UInt32 → Memory → K (Bool × Inode)
  | 0, dp, off, _ => if off < dp.size then fault .diverges else pure (true,dp)
  | fuel + 1, dp, off, de =>
    if off < dp.size then do
      let (de,dp) ← readRecord fs dp de off "isdirempty: readi"
      if dotName de then emptyLoop fs fuel dp (off + Dirent.recLen de) de
      else if Dirent.inode de ≠ 0 then return (false,dp)
      else emptyLoop fs fuel dp (off + Dirent.recLen de) de
    else pure (true,dp)

/-- `ext2_isdirempty` -/
def isdirempty (fs : Mount) (dp : Inode) (de : Memory) : K (Bool × Inode) := emptyLoop fs dp.size.toNat dp 0 de

end Xv6Ext2.Ext2
