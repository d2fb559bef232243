import Xv6Ext2.Fs.File

/-! The inode table: what `iupdate` writes is what `ilock` reads, inodes do not interfere, and the blocks of
the table hold no pointers. -/
namespace Xv6Ext2.Fs
open Lib Bio Log Function

/-- Contents after `iupdate`. -/
def saved (fs : Volume) (v : Blockno → Block) (ip : Inode) : Blockno → Block :=
  update v (iblock fs ip.inum) ((v (iblock fs ip.inum)).patch (ioffset ip.inum) 64 (dinode ip).byte)

section Records

private theorem u16_record {data : Block} {f : Nat → UInt8} {off k : Nat} (fits : off + 64 ≤ bsize) (inside : k + 2 ≤ 64) :
    u16 (data.patch off 64 f).byte (off + k) = u16 f k := by
  refine u16_congr _ _ _ _ (fun i bound => ?_)
  rw [Nat.add_assoc,Bytes.byte_patch_inside _ _ _ _ _ (by omega) fits]

private theorem u32_record {data : Block} {f : Nat → UInt8} {off k : Nat} (fits : off + 64 ≤ bsize) (inside : k + 4 ≤ 64) :
    u32 (data.patch off 64 f).byte (off + k) = u32 f k := by
  refine u32_congr _ _ _ _ (fun i bound => ?_)
  rw [Nat.add_assoc,Bytes.byte_patch_inside _ _ _ _ _ (by omega) fits]

theorem dinode_type (ip : Inode) : u16 (dinode ip).byte 0 = ip.type := by
  simp (disch := omega) only [dinode,Bytes.setU32,Bytes.setU16,Bytes.u16_patch_outside]
  exact Bytes.u16_setU16 _ 0 _ (by omega)

theorem dinode_major (ip : Inode) : u16 (dinode ip).byte 2 = ip.major := by
  simp (disch := omega) only [dinode,Bytes.setU32,Bytes.setU16,Bytes.u16_patch_outside]
  exact Bytes.u16_setU16 _ 2 _ (by omega)

theorem dinode_minor (ip : Inode) : u16 (dinode ip).byte 4 = ip.minor := by
  simp (disch := omega) only [dinode,Bytes.setU32,Bytes.setU16,Bytes.u16_patch_outside]
  exact Bytes.u16_setU16 _ 4 _ (by omega)

theorem dinode_nlink (ip : Inode) : u16 (dinode ip).byte 6 = ip.nlink := by
  simp (disch := omega) only [dinode,Bytes.setU32,Bytes.setU16,Bytes.u16_patch_outside]
  exact Bytes.u16_setU16 _ 6 _ (by omega)

theorem dinode_size (ip : Inode) : u32 (dinode ip).byte 8 = ip.size := by
  simp (disch := omega) only [dinode,Bytes.u32_patch_outside]
  exact Bytes.u32_setU32 _ 8 _ (by omega)

theorem dinode_addrs (ip : Inode) (k : Fin 13) : u32 (dinode ip).byte (12 + 4 * k.val) = ip.addrs k := by
  have small := k.isLt
  refine u32_stored _ _ _ (fun i bound => ?_)
  rw [dinode,Nat.add_assoc,Bytes.byte_patch_inside _ _ _ _ _ (by omega) (by omega),
    show (4 * k.val + i) / 4 = k.val by omega,show (4 * k.val + i) % 4 = i by omega]
  congr 3
  exact Fin.ext (Nat.mod_eq_of_lt small)

theorem inodeAt_patch (ip : Inode) (data : Block) {off : Nat} (fits : off + 64 ≤ bsize) :
    inodeAt ip.inum (data.patch off 64 (dinode ip).byte) off = ip := by
  have type : u16 (data.patch off 64 (dinode ip).byte).byte off = ip.type :=
    (u16_record (k := 0) fits (by omega)).trans (dinode_type ip)
  rw [inodeAt,type,u16_record fits (by omega),u16_record fits (by omega),u16_record fits (by omega),
    u32_record fits (by omega),dinode_major,dinode_minor,dinode_nlink,dinode_size]
  congr 1
  funext k
  have small := k.isLt
  rw [Nat.add_assoc,u32_record fits (by omega),dinode_addrs]

theorem inodeAt_patch_outside (inum : UInt32) (data : Block) (f : Nat → UInt8) {off pos : Nat}
    (outside : pos + 64 ≤ off ∨ off + 64 ≤ pos) : inodeAt inum (data.patch off 64 f) pos = inodeAt inum data pos := by
  rw [inodeAt,inodeAt]
  simp (disch := omega) only [Bytes.u16_patch_outside,Bytes.u32_patch_outside]

theorem ioffset_fits (inum : UInt32) : ioffset inum + 64 ≤ bsize := by
  have := Nat.mod_lt inum.toNat (by decide : 0 < ipb)
  simp only [ioffset,ipb,bsize] at *
  omega

end Records

section

variable {fs : Volume} {F : Files} {v v' : Blockno → Block} {i j : UInt32} {ip : Inode}

theorem iblock_toNat (fs : Volume) (inside : i.toNat < fs.sb.ninodes.toNat) :
    (iblock fs i).toNat = fs.sb.inodestart.toNat + i.toNat / ipb := by
  have order := Nat.div_le_div_right (c := ipb) (Nat.le_of_lt inside)
  have start := fs.bmapstart
  have size := fs.size_le
  have data := fs.data_pos
  simp only [fssize] at size
  rw [iblock,UInt32.toNat_add,UInt32.toNat_ofNat']
  generalize i.toNat / ipb = q at *
  omega

theorem iblock_lt (fs : Volume) (inside : i.toNat < fs.sb.ninodes.toNat) :
    (iblock fs i).toNat < fs.sb.bmapstart.toNat := by
  have order := Nat.div_le_div_right (c := ipb) (Nat.le_of_lt inside)
  have start := fs.bmapstart
  rw [iblock_toNat fs inside]
  omega

theorem iblock_home (fs : Volume) (inside : i.toNat < fs.sb.ninodes.toNat) :
    fs.sb.inodestart.toNat ≤ (iblock fs i).toNat := by
  rw [iblock_toNat fs inside]
  exact Nat.le_add_right _ _

theorem iblock_ne_bitmap (fs : Volume) (inside : i.toNat < fs.sb.ninodes.toNat) : iblock fs i ≠ fs.sb.bmapstart := by
  intro same
  have low := iblock_lt fs inside
  rw [same] at low
  exact Nat.lt_irrefl _ low

theorem diskInode_saved_self (fs : Volume) (v : Blockno → Block) (ip : Inode) :
    diskInode fs (saved fs v ip) ip.inum = ip := by
  rw [diskInode,saved,update_self]
  exact inodeAt_patch ip _ (ioffset_fits _)

theorem diskInode_saved_other (other : i ≠ ip.inum) (inside : i.toNat < fs.sb.ninodes.toNat)
    (inside' : ip.inum.toNat < fs.sb.ninodes.toNat) : diskInode fs (saved fs v ip) i = diskInode fs v i := by
  rw [diskInode,diskInode,saved]
  by_cases block : iblock fs i = iblock fs ip.inum
  · have blocks := congrArg UInt32.toNat block
    rw [iblock_toNat fs inside,iblock_toNat fs inside'] at blocks
    have numbers : i.toNat ≠ ip.inum.toNat := fun same => other (UInt32.toNat_inj.mp same)
    rw [block,update_self]
    refine inodeAt_patch_outside _ _ _ ?_
    simp only [ioffset,ipb,bsize] at *
    omega
  · rw [update_of_ne block]

theorem diskInode_congr (fs : Volume) (inside : i.toNat < fs.sb.ninodes.toNat)
    (same : ∀ b : Blockno, b.toNat < fs.sb.bmapstart.toNat → v' b = v b) : diskInode fs v' i = diskInode fs v i := by
  rw [diskInode,diskInode,same _ (iblock_lt fs inside)]

theorem Owned.ptr_congr (owned : Owned fs F v)
    (same : ∀ b : Blockno, fs.sb.bmapstart.toNat ≤ b.toNat → v' b = v b) {σ : Place} (within : σ.Within depth) :
    ptr F v' σ = ptr F v σ := by
  refine Slot.ptr_congr ?_ σ within
  intro ρ inner there k
  have behind := (owned.data ρ inner.within there).1
  rw [entry,entry]
  exact congrArg (word · k) (same _ (Nat.le_of_lt behind))

theorem Owned.congr (owned : Owned fs F v) (same : ∀ b : Blockno, fs.sb.bmapstart.toNat ≤ b.toNat → v' b = v b) :
    Owned fs F v' := by
  have ptrs (σ : Place) (within : σ.Within depth) := owned.ptr_congr same within
  have bits (z : Nat) : used fs v' z = used fs v z := by rw [used,used,same _ (Nat.le_refl _)]
  refine ⟨?_,?_,?_,?_⟩
  · intro σ ρ within within' there equal
    rw [ptrs σ within] at there equal
    rw [ptrs ρ within'] at equal
    exact owned.distinct σ ρ within within' there equal
  · intro σ within there
    rw [ptrs σ within] at there ⊢
    exact owned.data σ within there
  · intro σ within there
    rw [ptrs σ within] at there ⊢
    rw [bits]
    exact owned.marked σ within there
  · intro z low
    rw [bits]
    exact owned.reserved z low

theorem saved_other (inside : ip.inum.toNat < fs.sb.ninodes.toNat) (b : Blockno)
    (behind : fs.sb.bmapstart.toNat ≤ b.toNat) : saved fs v ip b = v b := by
  have low := iblock_lt fs inside
  refine update_of_ne ?_ _ _
  rintro rfl
  omega

variable {s : Sys} {budget : Finset Blockno} {fail : Fault → Prop}

theorem iupdate_meets (track : Track fs s v ∅ ∅ budget) (room : budget.card + 2 ≤ limit fs)
    (inside : ip.inum.toNat < fs.sb.ninodes.toNat) :
    Meets (iupdate fs ip) s (fun _ s' => Track fs s' (saved fs v ip) ∅ ∅ (insert (iblock fs ip.inum) budget)) fail := by
  have none := Finset.notMem_empty (iblock fs ip.inum)
  have mine := Finset.mem_insert_self (iblock fs ip.inum) ∅
  refine bread_step track none track.few fun s₁ track₁ => ?_
  refine bdata_step track₁ mine ?_
  refine bset_step track₁ mine fun s₂ track₂ => ?_
  refine logWrite_step track₂ room (iblock_home fs inside) fun s₃ track₃ => ?_
  exact brelse_last track₃ none none

theorem loadInode_meets (track : Track fs s v ∅ ∅ budget) (kind : (diskInode fs v i).type ≠ 0) :
    Meets (loadInode fs i) s (fun ip s' => ip = diskInode fs v i ∧ Track fs s' v ∅ ∅ budget) fail := by
  have none := Finset.notMem_empty (iblock fs i)
  have kind : (inodeAt i (v (iblock fs i)) (ioffset i)).type ≠ 0 := kind
  refine bread_step track none track.few fun s₁ track₁ => ?_
  refine bdata_step track₁ (Finset.mem_insert_self _ _) ?_
  refine brelse_step track₁ none none fun s₂ track₂ => ?_
  rw [if_neg kind]
  exact .pure_intro ⟨rfl,track₂⟩

end

end Xv6Ext2.Fs
