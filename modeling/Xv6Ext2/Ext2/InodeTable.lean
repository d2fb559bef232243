import Xv6Ext2.Ext2.BlockGroups
import Xv6Ext2.Ext2.WriteThrough

/-! The inode tables of all groups: where the record of an inode lies, and that `ext2_ilock` loads what `ext2_iupdate`
saved and nothing of another inode. -/
namespace Xv6Ext2.Ext2
open Lib Bio Function

def tableAt (o : Obs) (g : Nat) : Blockno := (desc o g).inodeTable

def inodesPerBlock (fs : Mount) : Nat := bsize / fs.exs.inodeSize.toNat

def Numbered (fs : Mount) (n : Nat) (inum : UInt32) : Prop := inum ≠ 0 ∧ groupNo fs inum < n

instance (fs : Mount) (n : Nat) (inum : UInt32) : Decidable (Numbered fs n inum) :=
  inferInstanceAs (Decidable (inum ≠ 0 ∧ groupNo fs inum < n))

def InTable (fs : Mount) (o : Obs) (g : Nat) (b : Blockno) : Prop :=
  ∃ i < fs.exs.inodesPerGroup.toNat, b = tableAt o g + UInt32.ofNat (i / inodesPerBlock fs)

/-- The inode tables of `n` groups are apart from each other and from the descriptors. Nobody holds a buffer, and
recycling one of these buffers loses nothing. -/
structure Tables (fs : Mount) (n : Nat) (o : Obs) : Prop where
  descriptors : n ≤ 64
  apart : ∀ g < n, ∀ h < n, ∀ b, InTable fs o g b → InTable fs o h b → g = h
  behind : ∀ g < n, ¬InTable fs o g 1
  idle : ∀ b, o.held b = false
  desc : Careful fs.recycle ∨ o.view 1 = o.disk 1
  stable : ∀ g < n, ∀ b, InTable fs o g b → Careful fs.recycle ∨ o.view b = o.disk b

/-- What `ext2_ilock` puts into a slot of the cache that is not valid. -/
def reload (fs : Mount) (slot : Inode) (d : Dev) : Except Fault Inode := (ilock fs slot d).map Prod.fst

def loaded (slot : Inode) (i : Bytes 128) : Except Fault Inode :=
  if modeType (u16 i.byte 0) slot.type = .free then .error (.panic "ilock: no type")
  else .ok ⟨slot.inum,modeType (u16 i.byte 0) slot.type,0,u16 i.byte 26,u32 i.byte 4,fun k => u32 i.byte (40 + 4 * k.val)⟩

section

variable {fs : Mount} {n : Nat} {o : Obs} {d d' : Dev} {ip slot : Inode} {inum other : UInt32}

theorem inodesPerBlock_pos (fs : Mount) : 0 < inodesPerBlock fs :=
  Nat.div_pos fs.inodeSize_le (Nat.lt_of_lt_of_le (by decide) fs.inodeSize_ge)

def indexOf (fs : Mount) (inum : UInt32) : Nat := (inum - 1).toNat % fs.exs.inodesPerGroup.toNat

theorem indexOf_lt (fs : Mount) (inum : UInt32) : indexOf fs inum < fs.exs.inodesPerGroup.toNat :=
  Nat.mod_lt _ fs.inodesPerGroup_pos

theorem tableOf_eq (fs : Mount) (o : Obs) (inum : UInt32) :
    tableOf fs o inum = tableAt o (groupNo fs inum) + UInt32.ofNat (indexOf fs inum / inodesPerBlock fs) := rfl

theorem inodeOffset_eq (fs : Mount) (inum : UInt32) :
    inodeOffset fs inum = indexOf fs inum % inodesPerBlock fs * fs.exs.inodeSize.toNat := rfl

theorem inTable_tableOf (fs : Mount) (o : Obs) (inum : UInt32) : InTable fs o (groupNo fs inum) (tableOf fs o inum) :=
  ⟨indexOf fs inum,indexOf_lt fs inum,tableOf_eq fs o inum⟩

theorem inum_inj (group : groupNo fs inum = groupNo fs other) (index : indexOf fs inum = indexOf fs other) : inum = other := by
  have same : (inum - 1).toNat = (other - 1).toNat := by
    rw [← Nat.div_add_mod (inum - 1).toNat fs.exs.inodesPerGroup.toNat,
      ← Nat.div_add_mod (other - 1).toNat fs.exs.inodesPerGroup.toNat]
    change _ * groupNo fs inum + indexOf fs inum = _ * groupNo fs other + indexOf fs other
    rw [group,index]
  exact sub_left_injective (UInt32.toNat_inj.mp same)

theorem records_apart (tables : Tables fs n o) (valid : Numbered fs n inum) (valid' : Numbered fs n other)
    (different : inum ≠ other) (block : tableOf fs o inum = tableOf fs o other) :
    inodeOffset fs inum + fs.exs.inodeSize.toNat ≤ inodeOffset fs other ∨
      inodeOffset fs other + fs.exs.inodeSize.toNat ≤ inodeOffset fs inum := by
  have group : groupNo fs inum = groupNo fs other := by
    apply tables.apart _ valid.2 _ valid'.2 _ (inTable_tableOf fs o inum)
    rw [block]
    exact inTable_tableOf fs o other
  have positive := inodesPerBlock_pos fs
  have row : indexOf fs inum / inodesPerBlock fs = indexOf fs other / inodesPerBlock fs := by
    rw [tableOf_eq,tableOf_eq,group,add_right_inj] at block
    have value := congrArg UInt32.toNat block
    have small (k : UInt32) : indexOf fs k / inodesPerBlock fs < 2 ^ 32 := by
      have bound := indexOf_lt fs k
      have limit := fs.exs.inodesPerGroup.toNat_lt
      exact Nat.lt_of_le_of_lt (Nat.div_le_self _ _) (by omega)
    rwa [UInt32.toNat_ofNat',UInt32.toNat_ofNat',Nat.mod_eq_of_lt (small inum),Nat.mod_eq_of_lt (small other)] at value
  have column : indexOf fs inum % inodesPerBlock fs ≠ indexOf fs other % inodesPerBlock fs := by
    intro same
    apply different
    apply inum_inj group
    rw [← Nat.div_add_mod (indexOf fs inum) (inodesPerBlock fs),row,same,Nat.div_add_mod]
  rw [inodeOffset_eq,inodeOffset_eq]
  rcases Nat.lt_or_gt_of_ne column with less | more
  · left
    have scaled := Nat.mul_le_mul_right fs.exs.inodeSize.toNat (Nat.succ_le_of_lt less)
    rw [Nat.succ_mul] at scaled
    omega
  · right
    have scaled := Nat.mul_le_mul_right fs.exs.inodeSize.toNat (Nat.succ_le_of_lt more)
    rw [Nat.succ_mul] at scaled
    omega

theorem reload_eq (group : groupNo fs slot.inum < 64) (idle : ∀ b, (obs d).held b = false)
    (desc : Careful fs.recycle ∨ (obs d).view 1 = (obs d).disk 1)
    (stable : Careful fs.recycle ∨ (obs d).view (tableOf fs (obs d) slot.inum) = (obs d).disk (tableOf fs (obs d) slot.inum)) :
    reload fs slot d =
      loaded slot (recordAt ((obs d).view (tableOf fs (obs d) slot.inum)) (inodeOffset fs slot.inum)) := by
  generalize table : tableOf fs (obs d) slot.inum = t at stable
  obtain ⟨d₁,o₁,ran₁,drift₁,locked₁⟩ := bread_drift (b := 1) fs.recycle (idle 1)
  have found : tableBlock fs (groupDesc ((obs d₁).view 1).byte (32 * groupNo fs slot.inum)) slot.inum = t := by
    rw [← table,locked₁]
    exact congrArg (fun data : Block => tableBlock fs (groupDesc data.byte (32 * groupNo fs slot.inum)) slot.inum)
      (drift₁.view_eq desc)
  obtain ⟨d₂,ran₂,released₂⟩ := brelse_run (d := d₁) (b := 1) (by simp [locked₁,Obs.lock])
  rw [locked₁,Obs.unlock_lock _ _ (by rw [drift₁.held]; exact idle 1)] at released₂
  obtain ⟨d₃,o₃,ran₃,drift₃,locked₃⟩ := bread_drift (d := d₂) (b := t) fs.recycle (by
    rw [released₂,drift₁.held]
    exact idle t)
  rw [released₂] at drift₃
  have view : (obs d₃).view t = (obs d).view t := by
    rw [locked₃]
    exact (drift₁.trans drift₃).view_eq stable
  obtain ⟨d₄,ran₄,-⟩ := brelse_run (d := d₃) (b := t) (by simp [locked₃,Obs.lock])
  rw [reload,ilock,bind_ok ran₁,bind_ok (bdata_run (by simp [locked₁,Obs.lock])),bind_ok (descIn_run group _),bind_ok ran₂,
    found,bind_ok ran₃,bind_ok (bdata_run (by simp [locked₃,Obs.lock])),bind_ok ran₄,view,loaded]
  split_ifs
  · rfl
  · rfl

theorem iupdate_table (tables : Tables fs n (obs d)) (valid : Numbered fs n ip.inum) :
    ∃ d', iupdate fs ip d = .ok ((),d') ∧ (∀ b, (obs d').held b = false) ∧ (obs d').view 1 = (obs d).view 1 ∧
      (∀ b ≠ tableOf fs (obs d) ip.inum, (obs d').disk b = (obs d).disk b) ∧
      (∀ b ≠ tableOf fs (obs d) ip.inum, (Careful fs.recycle ∨ (obs d).view b = (obs d).disk b) →
        (obs d').view b = (obs d).view b) ∧
      (obs d').view (tableOf fs (obs d) ip.inum) = (obs d').disk (tableOf fs (obs d) ip.inum) ∧
      (obs d').view (tableOf fs (obs d) ip.inum) = ((obs d).view (tableOf fs (obs d) ip.inum)).patch (inodeOffset fs ip.inum) 128
        (inodeRecord ip (recordAt ((obs d).view (tableOf fs (obs d) ip.inum)) (inodeOffset fs ip.inum))).byte := by
  have below : groupNo fs ip.inum < 64 := Nat.lt_of_lt_of_le valid.2 tables.descriptors
  have member := inTable_tableOf fs (obs d) ip.inum
  have apart : tableOf fs (obs d) ip.inum ≠ 1 := by
    intro same
    apply tables.behind _ valid.2
    rw [← same]
    exact member
  obtain ⟨⟨⟩,d',ran,o,drift,desc,after⟩ := (iupdate_drift below tables.idle apart tables.desc).returns (fun _ never => never)
  have table : tableOf fs o ip.inum = tableOf fs (obs d) ip.inum := tableOf_congr desc _
  have kept := drift.view_eq (tables.stable _ valid.2 _ member)
  rw [saved,table] at after
  generalize tableOf fs (obs d) ip.inum = t at *
  refine ⟨d',ran,?_,?_,?_,?_,?_,?_⟩
  · intro b
    rw [after]
    exact (congrFun drift.held b).trans (tables.idle b)
  · rw [after]
    exact (update_of_ne apart.symm _ _).trans desc
  · intro b other
    rw [after]
    exact (update_of_ne other _ _).trans (congrFun drift.disk b)
  · intro b other stable
    rw [after]
    exact (update_of_ne other _ _).trans (drift.view_eq stable)
  · rw [after]
    simp only [Obs.write,update_self]
  · rw [after,← kept]
    simp only [Obs.write,update_self]

theorem modeType_ne_free (kind : ip.type = .dir ∨ ip.type = .file) (i : Bytes 128) (type : FileType) :
    modeType (u16 (inodeRecord ip i).byte 0) type ≠ .free := by
  rw [inodeRecord_mode ip i kind]
  rcases kind with dir | file
  · rw [dir]
    decide
  · rw [file]
    decide

theorem loaded_inodeRecord (kind : ip.type = .dir ∨ ip.type = .file) (number : slot.inum = ip.inum) (i : Bytes 128) :
    loaded slot (inodeRecord ip i) = .ok {ip with major := 0} := by
  rw [loaded,if_neg (modeType_ne_free kind i _),inodeRecord_mode ip i kind,inodeRecord_nlink,inodeRecord_size,number]
  simp only [inodeRecord_addrs]

end

/-- `ext2_ilock` undoes `ext2_iupdate`: a slot of the cache that is loaded afterwards has what the inode had that was
saved, and one for another inode has what it would have had before. -/
theorem ilock_undoes_iupdate {fs : Mount} {n : Nat} {d : Dev} (tables : Tables fs n (obs d)) {ip : Inode}
    (valid : Numbered fs n ip.inum) (kind : ip.type = .dir ∨ ip.type = .file) :
    ∃ d', iupdate fs ip d = .ok ((),d') ∧
      (∀ slot : Inode, slot.inum = ip.inum → reload fs slot d' = .ok {ip with major := 0}) ∧
      ∀ slot : Inode, Numbered fs n slot.inum → slot.inum ≠ ip.inum → reload fs slot d' = reload fs slot d := by
  obtain ⟨d',ran,idle,one,disk,view,synced,written⟩ := iupdate_table tables valid
  have table (k : UInt32) : tableOf fs (obs d') k = tableOf fs (obs d) k := tableOf_congr one k
  have desc : Careful fs.recycle ∨ (obs d').view 1 = (obs d').disk 1 := by
    refine tables.desc.imp_right fun same => ?_
    rw [one,same,disk]
    intro member
    apply tables.behind _ valid.2
    rw [member]
    exact inTable_tableOf fs (obs d) ip.inum
  refine ⟨d',ran,?_,?_⟩
  · intro slot number
    have below : groupNo fs slot.inum < 64 := by
      rw [number]
      exact Nat.lt_of_lt_of_le valid.2 tables.descriptors
    rw [reload_eq below idle desc (by rw [number,table]; exact .inr synced),number,table,written,
      recordAt_patch _ _ (inodeOffset_fits fs ip.inum)]
    exact loaded_inodeRecord kind number _
  · intro slot valid' different
    have below : groupNo fs slot.inum < 64 := Nat.lt_of_lt_of_le valid'.2 tables.descriptors
    have stable := tables.stable _ valid'.2 _ (inTable_tableOf fs (obs d) slot.inum)
    rw [reload_eq below tables.idle tables.desc stable]
    by_cases block : tableOf fs (obs d) slot.inum = tableOf fs (obs d) ip.inum
    · -- both records lie in the block that was written
      rw [reload_eq below idle desc (by rw [table,block]; exact .inr synced),table,block,written]
      congr 1
      funext i
      have bound := i.isLt
      have overlap := records_apart tables valid' valid different block
      have large := fs.inodeSize_ge
      exact Bytes.byte_patch_outside _ _ _ _ _ (by omega)
    · have same := view _ block stable
      rw [reload_eq below idle desc (by rw [table,same,disk _ block]; exact stable),table,same]

private theorem populated_inTable {g : Nat} {b : Blockno} (member : InTable populatedMount (obs (cold populated)) g b) :
    b = tableAt (obs (cold populated)) g := by
  obtain ⟨i,bound,rfl⟩ := member
  have row : i / inodesPerBlock populatedMount = 0 := Nat.div_eq_of_lt bound
  rw [row]
  exact add_zero _

private theorem populated_tableAt : ∀ g < 3, tableAt (obs (cold populated)) g = [4,12,18].getD g 0 := by
  decide +kernel

theorem populated_tables : Tables populatedMount 3 (obs (cold populated)) where
  descriptors := by decide
  apart g small h small' b member member' := by
    have first := populated_inTable member
    have second := populated_inTable member'
    rw [first,populated_tableAt g small,populated_tableAt h small'] at second
    clear member member' first
    revert g h
    decide
  behind g small member := by
    have first := populated_inTable member
    rw [populated_tableAt g small] at first
    clear member
    revert g
    decide
  idle _ := rfl
  desc := .inr rfl
  stable _ _ _ _ := .inr rfl

/-- A directory of the second of three groups is saved and loaded again, and the first inode stays as it is. -/
theorem ilock_undoes_iupdate_second_group :
    ∃ d', iupdate populatedMount (newInode 17 .dir) (cold populated) = .ok ((),d') ∧
      reload populatedMount (newInode 17 .free) d' = .ok (newInode 17 .dir) ∧
      reload populatedMount (newInode 1 .free) d' = reload populatedMount (newInode 1 .free) (cold populated) := by
  have valid : Numbered populatedMount 3 (newInode 17 .dir).inum := by decide
  obtain ⟨d',ran,own,others⟩ := ilock_undoes_iupdate populated_tables valid (.inl rfl)
  exact ⟨d',ran,own (newInode 17 .free) rfl,others (newInode 1 .free) (by decide) (by decide)⟩

end Xv6Ext2.Ext2
