import Xv6Ext2.Fs.Contents

/-! `readi` and `writei` between operations, when every cached inode is on disk as it is in memory. -/
namespace Xv6Ext2.Fs
open Lib Bio Log Function

def Allocated (fs : Volume) (v : Blockno → Block) (i : UInt32) : Prop :=
  i.toNat < fs.sb.ninodes.toNat ∧ (diskInode fs v i).type ≠ 0

def listed (fs : Volume) (ip : Inode) : Inode :=
  if ip.inum.toNat < fs.sb.ninodes.toNat ∧ ip.type ≠ 0 then ip else blankInode ip.inum 0

def files (fs : Volume) (v : Blockno → Block) : Files := fun i => listed fs (diskInode fs v i)

def Dense (F : Files) (v : Blockno → Block) (i : UInt32) : Prop :=
  (F i).size.toNat ≤ maxfile * bsize ∧ ∀ bn, bn * bsize < (F i).size.toNat → ptr F v (slot i bn) ≠ 0

structure Sound (fs : Volume) (v : Blockno → Block) : Prop where
  owned : Owned fs (files fs v) v
  dense : ∀ i, Dense (files fs v) v i

def Exact (fs : Volume) (v : Blockno → Block) : Prop :=
  ∀ z < fs.sb.size.toNat, used fs v z = true ↔
    z ≤ fs.sb.bmapstart.toNat ∨ ∃ σ : Place, σ.Within depth ∧ ptr (files fs v) v σ ≠ 0 ∧ (ptr (files fs v) v σ).toNat = z

section

variable {fs : Volume} {F F' : Files} {v v' : Blockno → Block} {i : UInt32}

theorem files_of_allocated (here : Allocated fs v i) : files fs v i = diskInode fs v i := if_pos here

theorem files_outside (outside : ¬i.toNat < fs.sb.ninodes.toNat) : files fs v i = blankInode i 0 :=
  if_neg (fun here => outside here.1)

theorem inum_files (fs : Volume) (v : Blockno → Block) (i : UInt32) : (files fs v i).inum = i := by
  rw [files,listed]
  split_ifs <;> rfl

theorem ptr_congr_addrs (same : ∀ j, (F' j).addrs = (F j).addrs) : ptr F' v = ptr F v := by
  have equal : roots F' = roots F := by
    funext root
    rw [roots,roots,same]
  rw [ptr,ptr,equal]

theorem content_congr (ptrs : ∀ bn, ptr F' v' (slot i bn) = ptr F v (slot i bn))
    (data : ∀ bn, ptr F v (slot i bn) ≠ 0 → v' (ptr F v (slot i bn)) = v (ptr F v (slot i bn))) (x : Nat) :
    content F' v' i x = content F v i x := by
  rw [content,content,ptrs]
  split_ifs with empty
  · rfl
  · rw [data _ empty]

theorem Owned.congr_addrs (owned : Owned fs F v) (same : ∀ j, (F' j).addrs = (F j).addrs) : Owned fs F' v := by
  have ptrs : ptr F' v = ptr F v := ptr_congr_addrs same
  exact ⟨ptrs ▸ owned.distinct,ptrs ▸ owned.data,ptrs ▸ owned.marked,owned.reserved⟩

theorem files_congr (fixed : ∀ b : Blockno, b.toNat < fs.sb.bmapstart.toNat → v' b = v b) : files fs v' = files fs v := by
  funext j
  by_cases inside : j.toNat < fs.sb.ninodes.toNat
  · rw [files,files,diskInode_congr fs inside fixed]
  · exact (files_outside inside).trans (files_outside inside).symm

theorem files_saved {ip : Inode} (inside : ip.inum.toNat < fs.sb.ninodes.toNat) :
    files fs (saved fs v ip) =
      update (files fs v) ip.inum (listed fs ip) := by
  funext j
  by_cases same : j = ip.inum
  · rw [same,update_self,files,diskInode_saved_self]
  · rw [update_of_ne same]
    by_cases inside' : j.toNat < fs.sb.ninodes.toNat
    · rw [files,files,diskInode_saved_other same inside' inside]
    · exact (files_outside inside').trans (files_outside inside').symm

/-- The tests of `writei`. -/
def Refused (ip : Inode) (off n : UInt32) : Prop := Beyond ip off n ∨ maxFileBytes < off + n

instance (ip : Inode) (off n : UInt32) : Decidable (Refused ip off n) := inferInstanceAs (Decidable (_ ∨ _))

theorem toNat_add_of_no_wrap {off n : UInt32} (nowrap : ¬off + n < off) : (off + n).toNat = off.toNat + n.toNat := by
  have small := off.toNat_lt
  have small' := n.toNat_lt
  rw [UInt32.lt_iff_toNat_lt,UInt32.toNat_add] at nowrap
  rw [UInt32.toNat_add]
  omega

/-- Number of bytes that `readi` copies. -/
def readLength (ip : Inode) (off n : UInt32) : Nat := min n.toNat (ip.size.toNat - off.toNat)

theorem Dense.present (dense : Dense F v i) {off len : Nat} (inside : off + len ≤ (F i).size.toNat) :
    Present F v i off len := by
  intro x _ upper
  have positive : 0 < bsize := by decide
  have start := Nat.div_mul_le_self x bsize
  have below : x / bsize < maxfile := (Nat.div_lt_iff_lt_mul positive).mpr (by have := dense.1; omega)
  exact ⟨below,dense.2 _ (by omega)⟩

variable {s : Sys} {budget : Finset Blockno} {fail : Fault → Prop} {off n : UInt32}

theorem readi_beyond {ip : Inode} (kind : ip.type ≠ tDev) (beyond : Beyond ip off n) (dst : Nat → UInt8) :
    readi fs ip dst off n s = .ok ((minusOne,dst,ip),s) := by
  rw [readi,if_neg kind,if_pos beyond]
  rfl

theorem Dense.readable (dense : Dense F v i) (inside : ¬Beyond (F i) off n) : Present F v i off.toNat (readLength (F i) off n) := by
  have below := (not_or.mp inside).1
  rw [UInt32.lt_iff_toNat_lt] at below
  exact dense.present (by rw [readLength]; omega)

theorem readi_meets (track : Track fs s v ∅ ∅ budget) (kind : (F i).type ≠ tDev)
    (present : Present F v i off.toNat (readLength (F i) off n)) (inside : ¬Beyond (F i) off n) (dst : Nat → UInt8) :
    Meets (readi fs (F i) dst off n) s
      (fun r s' => r = (UInt32.ofNat (readLength (F i) off n),
          poke dst 0 (readLength (F i) off n) (fun j => content F v i (off.toNat + j)),F i) ∧
        Track fs s' v ∅ ∅ budget) fail := by
  obtain ⟨below,nowrap⟩ := not_or.mp inside
  have order : off.toNat ≤ (F i).size.toNat := by
    rw [UInt32.lt_iff_toNat_lt] at below
    omega
  have value := toNat_add_of_no_wrap nowrap
  have count : (if (F i).size < off + n then (F i).size - off else n) = UInt32.ofNat (readLength (F i) off n) := by
    apply UInt32.toNat_inj.mp
    have small := (F i).size.toNat_lt
    have small' := n.toNat_lt
    rw [UInt32.toNat_ofNat',readLength]
    split_ifs with more
    · rw [UInt32.lt_iff_toNat_lt] at more
      rw [UInt32.toNat_sub_of_le _ _ (UInt32.le_iff_toNat_le.mpr order)]
      omega
    · rw [UInt32.lt_iff_toNat_lt] at more
      omega
  have length : (UInt32.ofNat (readLength (F i) off n)).toNat = readLength (F i) off n := by
    have small := n.toNat_lt
    rw [UInt32.toNat_ofNat',readLength]
    omega
  rw [readi,if_neg kind,if_neg inside,count]
  dsimp only
  rw [length]
  refine (readLoop_meets _ track ?_ (by omega)).bind ?_
  · rw [Nat.sub_zero]
    exact present
  · rintro _ s' ⟨rfl,track'⟩
    rw [Nat.sub_zero]
    exact .pure_intro ⟨rfl,track'⟩

theorem writei_refused {ip : Inode} (kind : ip.type ≠ tDev) (refused : Refused ip off n) (src : Nat → UInt8) :
    writei fs ip src off n s = .ok ((minusOne,ip),s) := by
  rw [writei,if_neg kind]
  by_cases beyond : Beyond ip off n
  · rw [if_pos beyond]
    rfl
  · rw [if_neg beyond,if_pos (refused.resolve_left beyond)]
    rfl

/-- `len` bytes of `src` stand at byte `off` of file `i`, and nothing else has changed. -/
structure Rewrote (fs : Volume) (i : UInt32) (off len : Nat) (src : Nat → UInt8) (v v' : Blockno → Block) : Prop where
  sound : Sound fs v'
  self : files fs v' i = {files fs v i with size := (files fs v' i).size, addrs := (files fs v' i).addrs}
  size : (files fs v' i).size.toNat = max (files fs v i).size.toNat (off + len)
  others : ∀ j, j ≠ i → files fs v' j = files fs v j
  content : ∀ x < (files fs v' i).size.toNat, content (files fs v') v' i x =
    if off ≤ x ∧ x < off + len then src (x - off) else content (files fs v) v i x
  foreign : ∀ j, j ≠ i → ∀ x, Fs.content (files fs v') v' j x = Fs.content (files fs v) v j x
  exact : Exact fs v → Exact fs v'

theorem Allocated.type (here : Allocated fs v i) : (files fs v i).type ≠ 0 := by
  rw [files_of_allocated here]
  exact here.2

theorem Evolved.dense_other (evolved : Evolved fs i F F' v v') {j : UInt32} (other : j ≠ i) (dense : Dense F v j) :
    Dense F' v' j := by
  rw [Dense,evolved.inode_of_ne other]
  refine ⟨dense.1,fun bn below => ?_⟩
  rw [evolved.keeps _ (slot_leaf j bn).within (dense.2 bn below)]
  exact dense.2 bn below

theorem Evolved.exact (evolved : Evolved fs i (files fs v) F' v v') (exact : Exact fs v) (z : Nat)
    (bound : z < fs.sb.size.toNat) : used fs v' z = true ↔ z ≤ fs.sb.bmapstart.toNat ∨
      ∃ σ : Place, σ.Within depth ∧ ptr F' v' σ ≠ 0 ∧ (ptr F' v' σ).toNat = z := by
  rw [evolved.marks,exact z bound]
  constructor
  · rintro ((low | ⟨σ,within,present,same⟩) | ⟨σ,within,_,present,same⟩)
    · exact .inl low
    · have kept := evolved.keeps σ within present
      exact .inr ⟨σ,within,by rw [kept]; exact present,by rw [kept]; exact same⟩
    · exact .inr ⟨σ,within,present,same⟩
  · rintro (low | ⟨σ,within,present,same⟩)
    · exact .inl (.inl low)
    · by_cases empty : ptr (files fs v) v σ = 0
      · exact .inr ⟨σ,within,empty,present,same⟩
      · have kept := evolved.keeps σ within empty
        exact .inl (.inr ⟨σ,within,empty,by rw [← kept]; exact same⟩)

theorem Wrote.rewrote_inside {off len : Nat} {src : Nat → UInt8} (sound : Sound fs v)
    (inside : off + len ≤ (files fs v i).size.toNat) (wrote : Wrote fs i off len src (files fs v) F' v v') :
    F' = files fs v' ∧ Rewrote fs i off len src v v' := by
  have same := (wrote.same ((sound.dense i).present inside)).1
  have table : files fs v' = files fs v := files_congr wrote.evolved.fixed
  obtain rfl : F' = files fs v' := same.trans table.symm
  refine ⟨rfl,⟨wrote.evolved.owned,fun j => ?_⟩,?_,?_,fun j _ => by rw [table],?_,fun j other x => wrote.evolved.content_other other x,
    fun exact z bound => wrote.evolved.exact exact z bound⟩
  · refine ⟨by rw [table]; exact (sound.dense j).1,fun bn below => ?_⟩
    rw [table] at below
    have there := (sound.dense j).2 bn below
    rw [wrote.evolved.keeps _ (slot_leaf j bn).within there]
    exact there
  · rw [table]
  · rw [table]
    omega
  · intro x below
    have limit := (sound.dense i).1
    rw [table] at below
    exact wrote.content x ((Nat.div_lt_iff_lt_mul (by decide)).mpr (by omega))

theorem Owned.same_pointers {G : Files} {w : Blockno → Block} (owned : Owned fs F v) (addrs : ∀ j, (G j).addrs = (F j).addrs)
    (behind : ∀ b : Blockno, fs.sb.bmapstart.toNat ≤ b.toNat → w b = v b) :
    Owned fs G w ∧ (∀ σ : Place, σ.Within depth → ptr G w σ = ptr F v σ) ∧
      ∀ j x, content G w j x = content F v j x := by
  have ptrs (σ : Place) (within : σ.Within depth) : ptr G w σ = ptr F v σ := by
    rw [ptr_congr_addrs addrs]
    exact owned.ptr_congr behind within
  refine ⟨(owned.congr_addrs addrs).congr behind,ptrs,fun j x => ?_⟩
  refine content_congr (fun bn => ptrs _ (slot_leaf j bn).within) (fun bn there => behind _ ?_) x
  exact Nat.le_of_lt (owned.data _ (slot_leaf j bn).within there).1

structure Retagged (fs : Volume) (ip : Inode) (v v' : Blockno → Block) : Prop where
  table : files fs v' = update (files fs v) ip.inum ip
  sound : Sound fs v'
  content : ∀ j x, content (files fs v') v' j x = content (files fs v) v j x
  exact : Exact fs v → Exact fs v'

theorem saved_retagged {ip : Inode} (sound : Sound fs v) (inside : ip.inum.toNat < fs.sb.ninodes.toNat) (type : ip.type ≠ 0)
    (size : ip.size = (files fs v ip.inum).size) (addrs : ip.addrs = (files fs v ip.inum).addrs) :
    Retagged fs ip v (saved fs v ip) := by
  have table : files fs (saved fs v ip) = update (files fs v) ip.inum ip := by
    rw [files_saved inside,listed,if_pos ⟨inside,type⟩]
  have sizes (j : UInt32) : (files fs (saved fs v ip) j).size = (files fs v j).size := by
    rw [table]
    by_cases same : j = ip.inum
    · rw [same,update_self,size]
    · rw [update_of_ne same]
  have pointers (j : UInt32) : (files fs (saved fs v ip) j).addrs = (files fs v j).addrs := by
    rw [table]
    by_cases same : j = ip.inum
    · rw [same,update_self,addrs]
    · rw [update_of_ne same]
  obtain ⟨owned,ptrs,contents⟩ := sound.owned.same_pointers pointers (saved_other inside)
  refine ⟨table,⟨owned,fun j => ⟨by rw [sizes]; exact (sound.dense j).1,fun bn below => ?_⟩⟩,contents,fun exact z bound => ?_⟩
  · rw [sizes] at below
    rw [ptrs _ (slot_leaf j bn).within]
    exact (sound.dense j).2 bn below
  · have bits : used fs (saved fs v ip) z = used fs v z := by rw [used,used,saved_other inside _ (Nat.le_refl _)]
    rw [bits,exact z bound]
    refine or_congr_right (exists_congr fun σ => and_congr_right fun within => ?_)
    rw [ptrs σ within]

theorem Wrote.rewrote_grown {len off : Nat} {src : Nat → UInt8} {size : UInt32}
    (sound : Sound fs v) (here : Allocated fs v i) (start : off ≤ (files fs v i).size.toNat)
    (grows : (files fs v i).size.toNat < off + len) (limit : off + len ≤ maxfile * bsize) (value : size.toNat = off + len)
    (wrote : Wrote fs i off len src (files fs v) F' v v') :
    files fs (saved fs v' {F' i with size := size}) i = {F' i with size := size} ∧
      Rewrote fs i off len src v (saved fs v' {F' i with size := size}) := by
  have self := wrote.evolved.inode_self
  have inum : (F' i).inum = i := by rw [self]; exact inum_files fs v i
  have type : (F' i).type = (files fs v i).type := by rw [self]
  have inside : ({F' i with size := size} : Inode).inum.toNat < fs.sb.ninodes.toNat := by
    show (F' i).inum.toNat < _
    rw [inum]
    exact here.1
  have record : listed fs {F' i with size := size} = {F' i with size := size} :=
    if_pos ⟨inside,by show (F' i).type ≠ 0; rw [type]; exact here.type⟩
  have table : files fs (saved fs v' {F' i with size := size}) = update (files fs v) i {F' i with size := size} := by
    rw [files_saved inside,record,files_congr wrote.evolved.fixed]
    show update _ (F' i).inum _ = _
    rw [inum]
  have mine : files fs (saved fs v' {F' i with size := size}) i = {F' i with size := size} := by
    rw [table,update_self]
  have others (j : UInt32) (other : j ≠ i) : files fs (saved fs v' {F' i with size := size}) j = files fs v j := by
    rw [table,update_of_ne other]
  obtain ⟨owned,ptrs,contents⟩ := wrote.evolved.owned.same_pointers (G := files fs (saved fs v' {F' i with size := size}))
    (w := saved fs v' {F' i with size := size}) (fun j => by
      by_cases same : j = i
      · rw [same,mine]
      · rw [others j same,wrote.evolved.inode_of_ne same])
    (saved_other inside)
  refine ⟨mine,⟨owned,fun j => ?_⟩,?_,?_,others,?_,?_,?_⟩
  · by_cases same : j = i
    · rw [same,Dense,mine]
      refine ⟨by rw [value]; exact limit,fun bn below => ?_⟩
      rw [value] at below
      rw [ptrs _ (slot_leaf i bn).within]
      by_cases old : bn * bsize < (files fs v i).size.toNat
      · have there := (sound.dense i).2 bn old
        rw [wrote.evolved.keeps _ (slot_leaf i bn).within there]
        exact there
      · have block : bn * bsize / bsize = bn := Nat.mul_div_cancel _ (by decide)
        have filled := (wrote.filled (bn * bsize) (by omega) below).2
        rwa [block] at filled
    · have dense := wrote.evolved.dense_other same (sound.dense j)
      rw [Dense,others j same]
      rw [Dense,wrote.evolved.inode_of_ne same] at dense
      refine ⟨dense.1,fun bn below => ?_⟩
      rw [ptrs _ (slot_leaf j bn).within]
      exact dense.2 bn below
  · rw [mine,self]
  · rw [mine,value]
    omega
  · intro x below
    rw [mine,value] at below
    rw [contents,wrote.content x ((Nat.div_lt_iff_lt_mul (by decide)).mpr (by omega))]
  · intro j other x
    rw [contents]
    exact wrote.evolved.content_other other x
  · intro exact z bound
    have bits : used fs (saved fs v' {F' i with size := size}) z = used fs v' z := by
      rw [used,used,saved_other inside _ (Nat.le_refl _)]
    rw [bits,wrote.evolved.exact exact z bound]
    refine or_congr_right (exists_congr fun σ => and_congr_right fun within => ?_)
    rw [ptrs σ within]

theorem writei_meets (track : Track fs s v ∅ ∅ budget) (sound : Sound fs v) (here : Allocated fs v i)
    (kind : (files fs v i).type ≠ tDev) (accepted : ¬Refused (files fs v i) off n)
    (enough : 0 < n.toNat → Enough fs i off.toNat n.toNat (files fs v) v budget)
    (full : 0 < n.toNat → OutOfBlocks fs v (need (files fs v) v i off.toNat n.toNat) fail) (src : Nat → UInt8) :
    Meets (writei fs (files fs v i) src off n) s
      (fun r s' => ∃ v' budget', r = (n,files fs v' i) ∧ Rewrote fs i off.toNat n.toNat src v v' ∧
        Track fs s' v' ∅ ∅ budget') fail := by
  obtain ⟨inside,small⟩ := not_or.mp accepted
  obtain ⟨below,nowrap⟩ := not_or.mp inside
  have value := toNat_add_of_no_wrap nowrap
  have start : off.toNat ≤ (files fs v i).size.toNat := by
    rw [UInt32.lt_iff_toNat_lt] at below
    omega
  have limit : off.toNat + n.toNat ≤ maxfile * bsize := by
    have most : maxFileBytes.toNat = maxfile * bsize := rfl
    rw [UInt32.lt_iff_toNat_lt,value,most] at small
    omega
  rw [writei,if_neg kind,if_neg inside,if_neg small]
  have spare (grows : (files fs v i).size.toNat < off.toNat + (n.toNat - 0)) : budget.card + 2 ≤ Fs.limit fs := by
    have := (enough (by omega)).cost
    omega
  refine (writeLoop_meets _ track sound.owned (by rw [Nat.sub_zero]; exact limit) enough full spare (by omega)).bind ?_
  rintro _ s₁ ⟨F₁,v₁,budget₁,rfl,wrote,track₁,room⟩
  simp only [Nat.sub_zero,Nat.zero_add] at wrote room
  have size : (F₁ i).size = (files fs v i).size := by rw [wrote.evolved.inode_self]
  by_cases grows : 0 < n ∧ (F₁ i).size < off + n
  · rw [if_pos grows]
    have more : (files fs v i).size.toNat < off.toNat + n.toNat := by
      have := UInt32.lt_iff_toNat_lt.mp grows.2
      rwa [size,value] at this
    obtain ⟨mine,rewrote⟩ := wrote.rewrote_grown sound here start more limit value
    have inum : (F₁ i).inum = i := by rw [wrote.evolved.inode_self]; exact inum_files fs v i
    have stored : Meets (iupdate fs {F₁ i with size := off + n}) s₁ _ fail := iupdate_meets track₁ (room more)
      (by show (F₁ i).inum.toNat < _; rw [inum]; exact here.1)
    refine stored.bind ?_
    intro _ s₂ track₂
    exact .pure_intro ⟨_,_,by rw [mine],rewrote,track₂⟩
  · rw [if_neg grows]
    have within : off.toNat + n.toNat ≤ (files fs v i).size.toNat := by
      rw [not_and_or,size,UInt32.lt_iff_toNat_lt,UInt32.lt_iff_toNat_lt,value] at grows
      have zero : (0 : UInt32).toNat = 0 := rfl
      omega
    obtain ⟨rfl,rewrote⟩ := wrote.rewrote_inside sound within
    exact .pure_intro ⟨v₁,budget₁,rfl,rewrote,track₁⟩

theorem ptr_of_no_blocks (empty : ∀ i, (F i).addrs = fun _ => 0) (σ : Place) : ptr F v σ = 0 := by
  obtain ⟨⟨j,k⟩,path⟩ := σ
  induction path with
  | nil => exact congrFun (empty j) k
  | cons x path ih => rw [ptr,Slot.ptr_child]; exact if_pos ih

theorem sound_of_no_blocks (empty : ∀ i, (files fs v i).addrs = fun _ => 0) (size : ∀ i, (files fs v i).size = 0)
    (reserved : ∀ z, z ≤ fs.sb.bmapstart.toNat → used fs v z = true) : Sound fs v := by
  have none := ptr_of_no_blocks (v := v) empty
  refine ⟨⟨fun σ _ _ _ there => absurd (none σ) there,fun σ _ there => absurd (none σ) there,
    fun σ _ there => absurd (none σ) there,reserved⟩,fun i => ⟨?_,fun bn below => ?_⟩⟩
  · rw [size]
    exact Nat.zero_le _
  · rw [size] at below
    exact absurd below (Nat.not_lt_zero _)

theorem files_blank (zero : ∀ b : Blockno, b.toNat < fs.sb.bmapstart.toNat → v b = Bytes.zero bsize) (i : UInt32) :
    files fs v i = blankInode i 0 := by
  by_cases inside : i.toNat < fs.sb.ninodes.toNat
  · refine if_neg (fun here => here.2 ?_)
    have type : u16 (Bytes.zero bsize).byte (ioffset i) = 0 := by simp [u16,leDecode_zero]
    rw [diskInode,zero _ (iblock_lt fs inside)]
    exact type
  · exact files_outside inside

end

end Xv6Ext2.Fs
