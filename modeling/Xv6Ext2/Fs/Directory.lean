import Xv6Ext2.Fs.Cache
import Xv6Ext2.Lib.CString
import Xv6Ext2.Lib.Slots

/-! Directories of the inbuilt file system: `dirlookup`, `dirlink` and `fs_unlink`. A directory is a table of
records of 16 bytes. A `struct dirent` on the stack is the memory from its address on; what a function finds
there when it starts is an argument. -/
namespace Xv6Ext2.Fs
open Lib Bio Log Function

/-- `sizeof(struct dirent)` -/
def direntSize : UInt32 := 16

def dirsiz : Nat := 14

def namecmp (s t : Nat → UInt8) : Int := strncmp s t dirsiz

namespace Dirent

def inum (de : Nat → UInt8) : UInt16 := u16 de 0

def name (de : Nat → UInt8) : Nat → UInt8 := fun i => de (2 + i)

/-- `de.inum = inum`, which keeps the low 16 bits. -/
def setInum (de : Nat → UInt8) (inum : UInt32) : Nat → UInt8 := poke de 0 2 (leByte inum.toNat)

end Dirent

/-- `readi(dp, (char*)&de, off, sizeof(de))`, with a panic if the record is cut off. -/
def readDirent (fs : Volume) (dp : UInt32) (de : Nat → UInt8) (off : UInt32) (message : String) : M (Nat → UInt8) := do
  let (n,de) ← readInode fs dp de off direntSize
  if n = direntSize then return de else fault (.panic message)

/-- `writei(dp, (char*)&de, off, sizeof(de))`, with a panic if not all of it is written. -/
def writeDirent (fs : Volume) (dp : UInt32) (de : Nat → UInt8) (off : UInt32) (message : String) : M Unit := do
  let n ← writeInode fs dp de off direntSize
  if n = direntSize then return () else fault (.panic message)

/-- The loop of `dirlookup` from `off` on, with `fuel` bounding its rounds. -/
def lookupLoop (fs : Volume) (dp : UInt32) (name : Nat → UInt8) : Nat → UInt32 → (Nat → UInt8) → M (Option (UInt32 × UInt32))
  | 0, _, _ => fault .diverges
  | fuel + 1, off, de => do
    let ip ← inode dp
    if off < ip.size then
      let de ← readDirent fs dp de off "dirlookup read"
      if Dirent.inum de = 0 then lookupLoop fs dp name fuel (off + direntSize) de
      else if namecmp name (Dirent.name de) = 0 then return some ((Dirent.inum de).toUInt32,off)
      else lookupLoop fs dp name fuel (off + direntSize) de
    else return none

/-- `dirlookup`; the number of the inode that it returns, and `*poff`. -/
def dirlookup (fs : Volume) (dp : UInt32) (name de : Nat → UInt8) : M (Option (UInt32 × UInt32)) := do
  let ip ← inode dp
  if ip.type ≠ tDir then fault (.panic "dirlookup not DIR")
  else
    let found ← lookupLoop fs dp name (ip.size.toNat / 16 + 2) 0 de
    match found with
    | some (inum,off) =>
      iget inum
      return some (inum,off)
    | none => return none

/-- The loop of `dirlink` that looks for an empty record. -/
def emptyLoop (fs : Volume) (dp : UInt32) : Nat → UInt32 → (Nat → UInt8) → M (UInt32 × (Nat → UInt8))
  | 0, _, _ => fault .diverges
  | fuel + 1, off, de => do
    let ip ← inode dp
    if off < ip.size then
      let de ← readDirent fs dp de off "dirlink read"
      if Dirent.inum de = 0 then return (off,de)
      else emptyLoop fs dp fuel (off + direntSize) de
    else return (off,de)

def dirlink (fs : Volume) (dp : UInt32) (name : Nat → UInt8) (inum : UInt32) (de lookupDe : Nat → UInt8) : M Int := do
  match ← dirlookup fs dp name lookupDe with
  | some (other,_) =>
    iput fs other
    return -1
  | none =>
    let ip ← inode dp
    let (off,de) ← emptyLoop fs dp (ip.size.toNat / 16 + 2) 0 de
    writeDirent fs dp (Dirent.setInum (strncpy de 2 name dirsiz) inum) off "dirlink"
    return 0

def fsUnlink (fs : Volume) (dp : UInt32) (off : UInt32) (de : Nat → UInt8) : M Unit :=
  writeDirent fs dp (poke de 0 direntSize.toNat (fun _ => 0)) off "unlink: writei"

def record (mem : Nat → UInt8) (off : Nat) : Option (List UInt8 × UInt16) :=
  if u16 mem off = 0 then none else some (cname (fun i => mem (off + 2 + i)) dirsiz,u16 mem off)

def slots (fs : Volume) (v : Blockno → Block) (dp : UInt32) : Table (List UInt8) UInt16 :=
  (List.range ((files fs v dp).size.toNat / 16)).map (fun j => record (content (files fs v) v dp) (16 * j))

def IsDir (fs : Volume) (v : Blockno → Block) (dp : UInt32) : Prop :=
  (files fs v dp).type = tDir ∧ 16 ∣ (files fs v dp).size.toNat

section

variable {fs : Volume} {m : Nat} {k : Kernel} {v v' : Blockno → Block} {refs : UInt32 → Nat} {held : Finset UInt32}
  {budget : Finset Blockno} {fail : Fault → Prop} {dp : UInt32} {name de : Nat → UInt8}

theorem length_slots (fs : Volume) (v : Blockno → Block) (dp : UInt32) :
    (slots fs v dp).length = (files fs v dp).size.toNat / 16 := by
  rw [slots,List.length_map,List.length_range]

theorem getElem?_slots (fs : Volume) (v : Blockno → Block) (dp : UInt32) (j : Nat) :
    (slots fs v dp)[j]? =
      if j < (files fs v dp).size.toNat / 16 then some (record (content (files fs v) v dp) (16 * j)) else none := by
  split_ifs with inside
  · rw [slots,List.getElem?_map,List.getElem?_range inside]
    rfl
  · rw [List.getElem?_eq_none_iff,length_slots]
    exact Nat.le_of_not_lt inside

theorem drop_slots {j : Nat} (inside : j < (files fs v dp).size.toNat / 16) :
    (slots fs v dp).drop j = record (content (files fs v) v dp) (16 * j) :: (slots fs v dp).drop (j + 1) := by
  have bound : j < (slots fs v dp).length := by rw [length_slots]; exact inside
  have here := getElem?_slots fs v dp j
  rw [if_pos inside,List.getElem?_eq_getElem bound] at here
  rw [List.drop_eq_getElem_cons bound,Option.some.inj here]

theorem record_congr {f g : Nat → UInt8} {off off' : Nat} (same : ∀ x < 16, f (off + x) = g (off' + x)) :
    record f off = record g off' := by
  have number : u16 f off = u16 g off' := u16_congr _ _ _ _ (fun x bound => same x (by omega))
  have names : cname (fun i => f (off + 2 + i)) dirsiz = cname (fun i => g (off' + 2 + i)) dirsiz := by
    refine cname_congr fun x bound => ?_
    simp only [dirsiz] at bound
    have here := same (2 + x) (by omega)
    rwa [← Nat.add_assoc,← Nat.add_assoc] at here
  rw [record,record,number,names]

theorem readDirent_meets (steady : Steady fs m k v refs held budget) (mine : dp ∈ held)
    (small : (files fs v dp).size.toNat ≤ maxfile * bsize) (dir : IsDir fs v dp) {j : Nat}
    (inside : j < (files fs v dp).size.toNat / 16) (present : Present (files fs v) v dp (16 * j) 16) (de : Nat → UInt8) (message : String) :
    Meets (readDirent fs dp de (UInt32.ofNat (16 * j)) message) k
      (fun de' k' => record de' 0 = record (content (files fs v) v dp) (16 * j) ∧
        Steady fs m k' v refs held budget) fail := by
  obtain ⟨type,whole⟩ := dir
  have most : maxfile * bsize = 1073152 := by decide
  have sixteen : direntSize.toNat = 16 := rfl
  have place : (UInt32.ofNat (16 * j)).toNat = 16 * j := by
    rw [UInt32.toNat_ofNat']
    omega
  have within : ¬Beyond (files fs v dp) (UInt32.ofNat (16 * j)) direntSize := by
    rintro (behind | wraps)
    · rw [UInt32.lt_iff_toNat_lt,place] at behind
      omega
    · rw [UInt32.lt_iff_toNat_lt,UInt32.toNat_add,place,sixteen] at wraps
      omega
  have length : readLength (files fs v dp) (UInt32.ofNat (16 * j)) direntSize = 16 := by
    rw [readLength,place,sixteen]
    omega
  refine (readInode_meets steady mine (by rw [type]; decide) (by rw [length,place]; exact present) within de).bind ?_
  rintro _ k₁ ⟨rfl,steady₁⟩
  rw [length,place]
  dsimp only
  rw [if_pos (by decide)]
  refine .pure_intro ⟨record_congr fun x bound => ?_,steady₁⟩
  exact poke_inside _ _ _ _ bound

theorem record_eq_none {de : Nat → UInt8} (empty : record de 0 = none) : Dirent.inum de = 0 := by
  by_contra live
  have live : ¬u16 de 0 = 0 := live
  rw [record,if_neg live] at empty
  cases empty

theorem record_eq_some {de : Nat → UInt8} {a : List UInt8 × UInt16} (live : record de 0 = some a) :
    Dirent.inum de = a.2 ∧ Dirent.inum de ≠ 0 ∧ cname (Dirent.name de) dirsiz = a.1 := by
  rw [record] at live
  split_ifs at live with zero
  cases live
  have names : cname (Dirent.name de) dirsiz = cname (fun i => de (0 + 2 + i)) dirsiz :=
    cname_congr fun i _ => by rw [Dirent.name,Nat.zero_add]
  exact ⟨rfl,zero,names⟩

private theorem next_offset (j : Nat) : UInt32.ofNat (16 * j) + direntSize = UInt32.ofNat (16 * (j + 1)) := by
  apply UInt32.toNat_inj.mp
  have sixteen : direntSize.toNat = 16 := rfl
  rw [UInt32.toNat_add,UInt32.toNat_ofNat',UInt32.toNat_ofNat',sixteen]
  omega

private theorem offset_lt (small : (files fs v dp).size.toNat ≤ maxfile * bsize) (dir : IsDir fs v dp) {j : Nat}
    (upto : j ≤ (files fs v dp).size.toNat / 16) :
    UInt32.ofNat (16 * j) < (files fs v dp).size ↔ j < (files fs v dp).size.toNat / 16 := by
  have most : maxfile * bsize = 1073152 := by decide
  have whole := Nat.div_mul_cancel dir.2
  rw [UInt32.lt_iff_toNat_lt,UInt32.toNat_ofNat']
  omega

def Reaches (fs : Volume) (v : Blockno → Block) (dp : UInt32) (key : List UInt8) (j : Nat) : Prop :=
  ∀ t < j, ∀ a, (slots fs v dp)[t]? = some (some a) → a.1 ≠ key

def Readable (fs : Volume) (v : Blockno → Block) (dp : UInt32) (key : List UInt8) : Prop :=
  ∀ j < (files fs v dp).size.toNat / 16, Reaches fs v dp key j → Present (files fs v) v dp (16 * j) 16

private theorem record_present (dense : Dense (files fs v) v dp) (dir : IsDir fs v dp) {j : Nat}
    (inside : j < (files fs v dp).size.toNat / 16) : Present (files fs v) v dp (16 * j) 16 := by
  have whole := Nat.div_mul_cancel dir.2
  exact dense.present (by omega)

theorem Reaches.next {key : List UInt8} {j : Nat} (passed : Reaches fs v dp key j)
    (here : ∀ a, (slots fs v dp)[j]? = some (some a) → a.1 ≠ key) : Reaches fs v dp key (j + 1) := by
  intro t before
  by_cases last : t = j
  · rw [last]
    exact here
  · exact passed t (by omega)

theorem lookupLoop_meets (small : (files fs v dp).size.toNat ≤ maxfile * bsize) (dir : IsDir fs v dp)
    (readable : Readable fs v dp (cname name dirsiz)) (mine : dp ∈ held) (fuel : Nat) {j : Nat}
    (passed : Reaches fs v dp (cname name dirsiz) j) (steady : Steady fs m k v refs held budget) (upto : j ≤ (files fs v dp).size.toNat / 16)
    (enough : (files fs v dp).size.toNat / 16 < j + fuel) (de : Nat → UInt8) :
    Meets (lookupLoop fs dp name fuel (UInt32.ofNat (16 * j)) de) k
      (fun r k' => r = (Table.findFrom (cname name dirsiz) j ((slots fs v dp).drop j)).map
          (fun hit => (hit.1.toUInt32,UInt32.ofNat (16 * hit.2))) ∧
        Steady fs m k' v refs held budget) fail := by
  induction fuel generalizing j k de with
  | zero => omega
  | succ fuel ih =>
    have below := offset_lt small dir upto
    refine inode_step steady mine ?_
    by_cases inside : j < (files fs v dp).size.toNat / 16
    · rw [if_pos (below.mpr inside)]
      refine (readDirent_meets steady mine small dir inside (readable j inside passed) de _).bind ?_
      rintro de₁ k₁ ⟨same,steady₁⟩
      have slot := getElem?_slots fs v dp j
      rw [if_pos inside] at slot
      rw [drop_slots inside,next_offset j]
      cases here : record (content (files fs v) v dp) (16 * j) with
      | none =>
        rw [here] at same slot
        have next : Reaches fs v dp (cname name dirsiz) (j + 1) := passed.next fun a there => by rw [slot] at there; cases there
        rw [if_pos (record_eq_none same),Table.findFrom]
        exact ih next steady₁ (by omega) (by omega) de₁
      | some a =>
        rw [here] at same slot
        obtain ⟨number,live,named⟩ := record_eq_some same
        rw [if_neg live,Table.findFrom]
        by_cases hit : namecmp name (Dirent.name de₁) = 0
        · have equal : a.1 = cname name dirsiz := by rw [← named]; exact ((strncmp_eq_zero _ _ _).mp hit).symm
          rw [if_pos hit,if_pos equal]
          exact .pure_intro ⟨by rw [number]; rfl,steady₁⟩
        · have differ : ¬a.1 = cname name dirsiz := by
            rw [← named]
            exact fun equal => hit ((strncmp_eq_zero _ _ _).mpr equal.symm)
          have next : Reaches fs v dp (cname name dirsiz) (j + 1) := passed.next fun a there => by
            rw [slot] at there
            cases there
            exact differ
          rw [if_neg hit,if_neg differ]
          exact ih next steady₁ (by omega) (by omega) de₁
    · rw [if_neg (fun less => inside (below.mp less)),List.drop_eq_nil_of_le (by rw [length_slots]; omega)]
      exact .pure_intro ⟨rfl,steady⟩

theorem emptyLoop_meets (dense : Dense (files fs v) v dp) (dir : IsDir fs v dp) (mine : dp ∈ held) (fuel : Nat) {j : Nat}
    (steady : Steady fs m k v refs held budget) (upto : j ≤ (files fs v dp).size.toNat / 16)
    (enough : (files fs v dp).size.toNat / 16 < j + fuel) (de : Nat → UInt8) :
    Meets (emptyLoop fs dp fuel (UInt32.ofNat (16 * j)) de) k
      (fun r k' => r.1 = UInt32.ofNat (16 * (j + Table.hole ((slots fs v dp).drop j))) ∧
        Steady fs m k' v refs held budget) fail := by
  induction fuel generalizing j k de with
  | zero => omega
  | succ fuel ih =>
    have below := offset_lt dense.1 dir upto
    refine inode_step steady mine ?_
    by_cases inside : j < (files fs v dp).size.toNat / 16
    · rw [if_pos (below.mpr inside)]
      refine (readDirent_meets steady mine dense.1 dir inside (record_present dense dir inside) de _).bind ?_
      rintro de₁ k₁ ⟨same,steady₁⟩
      rw [drop_slots inside]
      cases here : record (content (files fs v) v dp) (16 * j) with
      | none =>
        rw [here] at same
        rw [if_pos (record_eq_none same)]
        exact .pure_intro ⟨rfl,steady₁⟩
      | some a =>
        rw [here] at same
        have rest := ih steady₁ (j := j + 1) (by omega) (by omega) de₁
        rw [if_neg (record_eq_some same).2.1,next_offset j,Table.hole,← Nat.add_assoc,Nat.add_right_comm]
        exact rest
    · rw [if_neg (fun less => inside (below.mp less)),List.drop_eq_nil_of_le (by rw [length_slots]; omega)]
      exact .pure_intro ⟨rfl,steady⟩

theorem Rewrote.slots {h : Nat} (rewrote : Rewrote fs dp (16 * h) 16 de v v') (dir : IsDir fs v dp)
    (upto : h ≤ (files fs v dp).size.toNat / 16) :
    IsDir fs v' dp ∧ ∀ j, (Fs.slots fs v' dp)[j]? = if j = h then some (record de 0) else (Fs.slots fs v dp)[j]? := by
  have size := rewrote.size
  have whole := Nat.div_mul_cancel dir.2
  refine ⟨⟨by rw [rewrote.type]; exact dir.1,by omega⟩,fun j => ?_⟩
  rw [getElem?_slots,getElem?_slots]
  by_cases here : j = h
  · rw [if_pos here,if_pos (by omega),here]
    refine congrArg some (record_congr fun x bound => ?_)
    rw [rewrote.content _ (by omega),if_pos (by omega),Nat.zero_add,Nat.add_sub_cancel_left]
  · rw [if_neg here]
    by_cases inside : j < (files fs v dp).size.toNat / 16
    · rw [if_pos (by omega),if_pos inside]
      refine congrArg some (record_congr fun x bound => ?_)
      rw [rewrote.content _ (by omega),if_neg (by omega)]
    · rw [if_neg (by omega),if_neg inside]

theorem record_new (de name : Nat → UInt8) {inum : UInt32} (nonzero : UInt16.ofNat inum.toNat ≠ 0) :
    record (Dirent.setInum (strncpy de 2 name dirsiz) inum) 0 = some (cname name dirsiz,UInt16.ofNat inum.toNat) := by
  have number : u16 (Dirent.setInum (strncpy de 2 name dirsiz) inum) 0 = UInt16.ofNat inum.toNat := by
    have bytes : leDecode 2 (fun i => Dirent.setInum (strncpy de 2 name dirsiz) inum (0 + i)) = leDecode 2 (leByte inum.toNat) :=
      leDecode_congr _ _ _ fun i bound => poke_inside _ _ _ _ bound
    rw [u16,bytes,leDecode_leByte]
    apply UInt16.toNat_inj.mp
    rw [UInt16.toNat_ofNat',UInt16.toNat_ofNat']
    exact Nat.mod_mod _ _
  have named : cname (fun i => Dirent.setInum (strncpy de 2 name dirsiz) inum (0 + 2 + i)) dirsiz = cname name dirsiz := by
    rw [← cname_strncpy de 2 name dirsiz]
    refine cname_congr fun i _ => ?_
    rw [Nat.zero_add]
    exact poke_outside _ _ _ _ (.inr (by omega))
  rw [record,number,if_neg nonzero,named]

theorem record_blank (de : Nat → UInt8) : record (poke de 0 16 (fun _ => 0)) 0 = none := by
  have zero : u16 (poke de 0 16 (fun _ => 0)) 0 = 0 := by
    rw [u16_congr _ (fun _ => 0) 0 0 (fun i bound => poke_inside _ _ _ _ (by omega)),u16_zero]
  rw [record,if_pos zero]

def grabbed (refs : UInt32 → Nat) : Option (UInt16 × Nat) → UInt32 → Nat
  | some (inum,_) => update refs inum.toUInt32 (refs inum.toUInt32 + 1)
  | none => refs

/-- What `dirlookup` returns and leaves. -/
def LookedUp (fs : Volume) (m : Nat) (v : Blockno → Block) (refs : UInt32 → Nat) (held : Finset UInt32) (budget : Finset Blockno)
    (found : Option (UInt16 × Nat)) (r : Option (UInt32 × UInt32)) (k : Kernel) : Prop :=
  r = found.map (fun hit => (hit.1.toUInt32,UInt32.ofNat (16 * hit.2))) ∧ Steady fs m k v (grabbed refs found) held budget ∧
    ∀ hit, found = some hit → refs hit.1.toUInt32 = 0 → (k.cache hit.1.toUInt32).copy = none

variable (steady : Steady fs m k v refs held budget) (dir : IsDir fs v dp) (mine : dp ∈ held)

include steady dir mine

theorem dirlookup_readable (small : (files fs v dp).size.toNat ≤ maxfile * bsize) (name de : Nat → UInt8)
    (readable : Readable fs v dp (cname name dirsiz))
    (room : ∀ hit ∈ (slots fs v dp).find (cname name dirsiz), k.Room hit.1.toUInt32) :
    Meets (dirlookup fs dp name de) k
      (LookedUp fs m v refs held budget ((slots fs v dp).find (cname name dirsiz))) fail := by
  refine inode_step steady mine ?_
  rw [if_neg (not_not.mpr dir.1)]
  refine (lookupLoop_meets (j := 0) small dir readable mine _ (fun t before => absurd before (Nat.not_lt_zero t)) steady
    (Nat.zero_le _) (by omega) de).bind ?_
  rintro _ k₁ ⟨rfl,steady₁⟩
  rw [List.drop_zero]
  cases found : (slots fs v dp).find (cname name dirsiz) with
  | none =>
    rw [show Table.findFrom _ 0 _ = _ from found]
    exact .pure_intro ⟨rfl,steady₁,fun _ impossible => by cases impossible⟩
  | some hit =>
    rw [show Table.findFrom _ 0 _ = _ from found]
    refine iget_step steady₁ (steady₁.room steady (room hit found)) fun k₂ steady₂ fresh => .pure_intro ⟨rfl,steady₂,fun _ same => ?_⟩
    cases same
    exact fresh

theorem dirlookup_meets (dense : Dense (files fs v) v dp) (name de : Nat → UInt8)
    (room : ∀ hit ∈ (slots fs v dp).find (cname name dirsiz), k.Room hit.1.toUInt32) :
    Meets (dirlookup fs dp name de) k
      (LookedUp fs m v refs held budget ((slots fs v dp).find (cname name dirsiz))) fail :=
  dirlookup_readable steady dir mine dense.1 name de (fun _ inside _ => record_present dense dir inside) room

theorem writeDirent_meets (sound : Sound fs v)
    {h : Nat} (upto : h ≤ (files fs v dp).size.toNat / 16) (fits : 16 * (h + 1) ≤ maxfile * bsize)
    (enough : Enough fs dp (16 * h) 16 (files fs v) v budget)
    (full : OutOfBlocks fs v (need (files fs v) v dp (16 * h) 16) fail) (de : Nat → UInt8) (message : String) :
    Meets (writeDirent fs dp de (UInt32.ofNat (16 * h)) message) k
      (fun _ k' => ∃ v' budget', Rewrote fs dp (16 * h) 16 de v v' ∧ Steady fs m k' v' refs held budget') fail := by
  have most : maxfile * bsize = 1073152 := by decide
  have sixteen : direntSize.toNat = 16 := rfl
  have place : (UInt32.ofNat (16 * h)).toNat = 16 * h := by
    rw [UInt32.toNat_ofNat']
    omega
  have whole := Nat.div_mul_cancel dir.2
  have accepted : ¬Refused (files fs v dp) (UInt32.ofNat (16 * h)) direntSize := by
    have sum : (UInt32.ofNat (16 * h) + direntSize).toNat = 16 * h + 16 := by
      rw [UInt32.toNat_add,place,sixteen]
      omega
    rintro ((behind | wraps) | long)
    · rw [UInt32.lt_iff_toNat_lt,place] at behind
      omega
    · rw [UInt32.lt_iff_toNat_lt,sum,place] at wraps
      omega
    · have limit : maxFileBytes.toNat = maxfile * bsize := rfl
      rw [UInt32.lt_iff_toNat_lt,sum,limit] at long
      omega
  have wrote := writeInode_meets steady mine sound (by rw [dir.1]; decide) accepted
    (fun _ => by rw [place,sixteen]; exact enough) (fun _ => by rw [place,sixteen]; exact full) de
  rw [place,sixteen] at wrote
  refine wrote.bind ?_
  rintro _ k₁ ⟨rfl,done⟩
  rw [if_pos rfl]
  exact .pure_intro done

theorem dirlink_present (dense : Dense (files fs v) v dp)
    {hit : UInt16 × Nat} (found : (slots fs v dp).find (cname name dirsiz) = some hit)
    (free : hit.1.toUInt32 ∉ held) (room : k.Room hit.1.toUInt32) (inum : UInt32) (de lookupDe : Nat → UInt8) :
    Meets (dirlink fs dp name inum de lookupDe) k
      (fun r k' => r = -1 ∧ Steady fs m k' v refs held budget) fail := by
  refine (dirlookup_meets steady dir mine dense name lookupDe fun other same => ?_).bind ?_
  · rw [found] at same
    cases same
    exact room
  rintro _ k₁ ⟨rfl,steady₁,fresh⟩
  rw [found] at steady₁ ⊢
  have kept : ¬(k₁.cache hit.1.toUInt32).Unlinked := by
    rintro ⟨single,zero⟩
    rw [steady₁.counted,grabbed,update_self] at single
    rw [fresh hit found (by omega)] at zero
    cases zero
  refine (iput_kept steady₁ free kept).bind ?_
  intro _ k₂ steady₂
  have same : update (grabbed refs (some hit)) hit.1.toUInt32 (grabbed refs (some hit) hit.1.toUInt32 - 1) = refs := by
    rw [grabbed,update_self,update_idem,Nat.add_sub_cancel,update_eq_self]
  rw [same] at steady₂
  exact .pure_intro ⟨rfl,steady₂⟩

theorem dirlink_absent (sound : Sound fs v) (absent : (slots fs v dp).find (cname name dirsiz) = none) {inum : UInt32}
    (nonzero : UInt16.ofNat inum.toNat ≠ 0) (fits : 16 * ((slots fs v dp).hole + 1) ≤ maxfile * bsize)
    (enough : Enough fs dp (16 * (slots fs v dp).hole) 16 (files fs v) v budget)
    (full : OutOfBlocks fs v (need (files fs v) v dp (16 * (slots fs v dp).hole) 16) fail) (de lookupDe : Nat → UInt8) :
    Meets (dirlink fs dp name inum de lookupDe) k
      (fun r k' => r = 0 ∧ ∃ v' budget', Sound fs v' ∧ IsDir fs v' dp ∧
        slots fs v' dp = (slots fs v dp).put (cname name dirsiz) (UInt16.ofNat inum.toNat) ∧
        Steady fs m k' v' refs held budget') fail := by
  have dense := sound.dense dp
  refine (dirlookup_meets steady dir mine dense name lookupDe fun _ found => by rw [absent] at found; cases found).bind ?_
  rintro _ k₁ ⟨rfl,steady₁,-⟩
  rw [absent] at steady₁ ⊢
  refine inode_step steady₁ mine ?_
  refine (emptyLoop_meets (j := 0) dense dir mine _ steady₁ (Nat.zero_le _) (by omega) de).bind ?_
  rintro ⟨off,de₂⟩ k₂ ⟨place,steady₂⟩
  rw [Nat.zero_add,List.drop_zero] at place
  dsimp only at place ⊢
  have upto : (slots fs v dp).hole ≤ (files fs v dp).size.toNat / 16 := by
    rw [← length_slots]
    exact Table.hole_le _
  rw [place]
  refine (writeDirent_meets steady₂ dir mine sound upto fits enough full _ _).bind ?_
  rintro _ k₃ ⟨v₃,budget₃,rewrote,steady₃⟩
  obtain ⟨dir₃,slots₃⟩ := rewrote.slots dir upto
  refine .pure_intro ⟨rfl,v₃,budget₃,rewrote.sound,dir₃,List.ext_getElem? fun j => ?_,steady₃⟩
  rw [slots₃,Table.getElem?_put,record_new _ _ nonzero]

theorem fsUnlink_meets (sound : Sound fs v) {j : Nat} (inside : j < (slots fs v dp).length)
    (enough : Enough fs dp (16 * j) 16 (files fs v) v budget) (de : Nat → UInt8) :
    Meets (fsUnlink fs dp (UInt32.ofNat (16 * j)) de) k
      (fun _ k' => ∃ v' budget', Sound fs v' ∧ IsDir fs v' dp ∧ slots fs v' dp = (slots fs v dp).clear j ∧
        Steady fs m k' v' refs held budget') fail := by
  have bound := inside
  rw [length_slots] at bound
  have whole := Nat.div_mul_cancel dir.2
  have dense := sound.dense dp
  have small := dense.1
  -- the record is inside the file, so that no block is missing
  have present : Present (files fs v) v dp (16 * j) 16 := dense.present (by omega)
  have full : OutOfBlocks fs v (need (files fs v) v dp (16 * j) 16) fail := by
    intro less
    refine absurd less (Nat.not_lt.mpr ?_)
    rw [need_present present (by decide)]
    exact Nat.zero_le _
  refine (writeDirent_meets steady dir mine sound (Nat.le_of_lt bound) (by omega) enough full _ _).mono ?_ (fun _ => id)
  rintro _ k₁ ⟨v₁,budget₁,rewrote,steady₁⟩
  obtain ⟨dir₁,slots₁⟩ := rewrote.slots dir (Nat.le_of_lt bound)
  refine ⟨v₁,budget₁,rewrote.sound,dir₁,List.ext_getElem? fun i => ?_,steady₁⟩
  rw [slots₁,Table.getElem?_clear _ _ _ inside]
  have blank : record (poke de 0 direntSize.toNat (fun _ => 0)) 0 = none := record_blank de
  rw [blank]

end

end Xv6Ext2.Fs
