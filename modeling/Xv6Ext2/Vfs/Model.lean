import Xv6Ext2.Bio
import Xv6Ext2.Lib.CString

/-! Inodes as the layer above the file systems names them, and the elements of a path. -/
namespace Xv6Ext2.Vfs
open Lib Bio

abbrev Memory := Nat → UInt8

/-- `ROOTDEV` and `EXT2DEV`. -/
inductive Device where
  | rootdev
  | ext2dev
  deriving DecidableEq

/-- A `struct inode *`: the entry of the inode cache for this inode. -/
structure Ref where
  dev : Device
  inum : UInt32
  deriving DecidableEq

/-- `DIRSIZ` and `EXT2_NAME_LEN`. -/
def dirlength : Device → Nat
  | .rootdev => 14
  | .ext2dev => 255

def slash : UInt8 := 47

/-- `skipelem`: what is left of the path, and `name`. The path is a string without its NUL; `none` is the null pointer. -/
def skipelem (path : List UInt8) (name : Memory) (dev : Device) : Option (List UInt8 × Memory) :=
  let path := path.dropWhile (· = slash)
  if path = [] then none
  else
    let s := path.takeWhile (· ≠ slash)
    let rest := (path.dropWhile (· ≠ slash)).dropWhile (· = slash)
    if s.length ≥ dirlength dev then some (rest,poke name 0 (dirlength dev) (cstring s))
    else some (rest,poke name 0 (s.length + 1) (cstring s))

end Xv6Ext2.Vfs
