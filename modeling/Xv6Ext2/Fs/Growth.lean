import Xv6Ext2.Fs.Bmap

/-! What `bmap` does to a file system in which every block has one owner: it fills empty slots of one
inode with fresh zeroed blocks and changes nothing else. -/
namespace Xv6Ext2.Fs
open Lib Bio Log Function

/-- After changes to the blocks of inode `i` and to the bitmap only, with no block taken from the inode. -/
structure Evolved (fs : Volume) (i : UInt32) (F F' : Files) (v v' : Blockno → Block) : Prop where
  owned : Owned fs F' v'
  inode : F' = update F i {F i with addrs := (F' i).addrs}
  keeps : ∀ σ : Place, σ.Within depth → ptr F v σ ≠ 0 → ptr F' v' σ = ptr F v σ
  others : ∀ σ : Place, σ.Within depth → σ.root.1 ≠ i → ptr F' v' σ = ptr F v σ
  foreign : ∀ σ : Place, σ.Leaf depth → σ.root.1 ≠ i → ptr F v σ ≠ 0 → v' (ptr F v σ) = v (ptr F v σ)
  fixed : ∀ b : Blockno, b.toNat < fs.sb.bmapstart.toNat → v' b = v b
  marks : ∀ z, used fs v' z = true ↔ used fs v z = true ∨
    ∃ σ : Place, σ.Within depth ∧ ptr F v σ = 0 ∧ ptr F' v' σ ≠ 0 ∧ (ptr F' v' σ).toNat = z

/-- Some empty slots of inode `i` were filled with zeroed blocks, and data blocks are as they were. -/
structure Grown (fs : Volume) (i : UInt32) (F F' : Files) (v v' : Blockno → Block) : Prop
    extends Evolved fs i F F' v v' where
  data : ∀ σ : Place, σ.Leaf depth → ptr F' v' σ ≠ 0 →
    v' (ptr F' v' σ) = if ptr F v σ = 0 then Bytes.zero bsize else v (ptr F v σ)

structure Attached (fs : Volume) (i : UInt32) (F F' : Files) (v v' : Blockno → Block) (τ : Place) (b : Blockno) :
    Prop where
  free : Free fs v b
  owner : τ.root.1 = i
  within : τ.Within depth
  empty : ptr F v τ = 0
  inode : F' = update F i {F i with addrs := (F' i).addrs}
  ptr : ∀ σ : Place, σ.Within depth → ptr F' v' σ = if σ = τ then b else ptr F v σ
  used : ∀ z, used fs v' z = (decide (z = b.toNat) || used fs v z)
  zeroed : v' b = Bytes.zero bsize
  view : ∀ x, x ≠ fs.sb.bmapstart → x ≠ b →
    (∀ σ : Place, σ.Inner depth → Fs.ptr F v σ ≠ 0 → Fs.ptr F v σ ≠ x) → v' x = v x

section

variable {fs : Volume} {F F' F₁ : Files} {v v' v₁ : Blockno → Block} {i : UInt32} {b : Blockno} {τ : Place}

namespace Evolved

theorem refl (owned : Owned fs F v) (i : UInt32) : Evolved fs i F F v v where
  owned := owned
  inode := (update_eq_self i F).symm
  keeps _ _ _ := rfl
  others _ _ _ := rfl
  foreign _ _ _ _ := rfl
  fixed _ _ := rfl
  marks _ := ⟨Or.inl,fun either => either.elim id (fun new => by obtain ⟨_,_,empty,present,_⟩ := new; exact absurd empty present)⟩

theorem trans (first : Evolved fs i F F' v v') (second : Evolved fs i F' F₁ v' v₁) : Evolved fs i F F₁ v v₁ where
  owned := second.owned
  inode := by
    rw [second.inode,first.inode]
    simp only [update_self,update_idem]
  keeps σ within present := by
    have kept := first.keeps σ within present
    rw [second.keeps σ within (by rw [kept]; exact present),kept]
  others σ within other := (second.others σ within other).trans (first.others σ within other)
  foreign σ leaf other present := by
    have kept := first.others σ leaf.within other
    have later := second.foreign σ leaf other (by rw [kept]; exact present)
    rw [kept] at later
    exact later.trans (first.foreign σ leaf other present)
  fixed b low := (second.fixed b low).trans (first.fixed b low)
  marks z := by
    rw [second.marks,first.marks]
    constructor
    · rintro ((marked | ⟨σ,within,empty,present,same⟩) | ⟨σ,within,empty,present,same⟩)
      · exact .inl marked
      · have kept := second.keeps σ within present
        exact .inr ⟨σ,within,empty,by rw [kept]; exact present,by rw [kept]; exact same⟩
      · refine .inr ⟨σ,within,?_,present,same⟩
        by_contra there
        exact there ((first.keeps σ within there).symm.trans empty)
    · rintro (marked | ⟨σ,within,empty,present,same⟩)
      · exact .inl (.inl marked)
      · by_cases middle : ptr F' v' σ = 0
        · exact .inr ⟨σ,within,middle,present,same⟩
        · have kept := second.keeps σ within middle
          exact .inl (.inr ⟨σ,within,empty,middle,by rw [← kept]; exact same⟩)

theorem inode_of_ne (evolved : Evolved fs i F F' v v') {j : UInt32} (other : j ≠ i) : F' j = F j := by
  rw [evolved.inode,update_of_ne other]

theorem inode_self (evolved : Evolved fs i F F' v v') : F' i = {F i with addrs := (F' i).addrs} := by
  have here := congrFun evolved.inode i
  rwa [update_self] at here

end Evolved

theorem Grown.refl (owned : Owned fs F v) (i : UInt32) : Grown fs i F F v v where
  toEvolved := .refl owned i
  data _ _ there := (if_neg there).symm

theorem Grown.trans (first : Grown fs i F F' v v') (second : Grown fs i F' F₁ v' v₁) : Grown fs i F F₁ v v₁ where
  toEvolved := first.toEvolved.trans second.toEvolved
  data σ leaf present := by
    rw [second.data σ leaf present]
    by_cases empty : ptr F' v' σ = 0
    · have before : ptr F v σ = 0 := by
        by_contra present'
        exact present' ((first.keeps σ leaf.within present').symm.trans empty)
      rw [if_pos empty,if_pos before]
    · rw [if_neg empty,first.data σ leaf empty]

theorem Attached.grown (attached : Attached fs i F F' v v' τ b) (owned : Owned fs F v) : Grown fs i F F' v v' := by
  have free := attached.free
  have present := owned.free_pos free
  have here : Fs.ptr F' v' τ = b := by rw [attached.ptr τ attached.within,if_pos rfl]
  have old {σ : Place} (there : Fs.ptr F v σ ≠ 0) : σ ≠ τ := by
    rintro rfl
    exact there attached.empty
  have data {σ : Place} (leaf : σ.Leaf depth) (there : Fs.ptr F v σ ≠ 0) : v' (Fs.ptr F v σ) = v (Fs.ptr F v σ) :=
    attached.view _ (owned.ne_bitmap leaf.within there) (owned.free_ne free leaf.within)
      (fun ρ inner present' => owned.leaf_apart leaf inner present')
  refine ⟨⟨⟨?_,?_,?_,?_⟩,attached.inode,?_,?_,fun σ leaf _ there => data leaf there,?_,?_⟩,?_⟩
  · exact owned.distinct.attach (fun σ inside => owned.free_ne free inside) attached.ptr
  · intro σ inside there
    rw [attached.ptr σ inside] at there ⊢
    split_ifs at there ⊢
    · exact ⟨owned.free_data free,free.1⟩
    · exact owned.data σ inside there
  · intro σ inside there
    rw [attached.ptr σ inside] at there ⊢
    rw [attached.used]
    split_ifs at there ⊢
    · simp
    · rw [owned.marked σ inside there,Bool.or_true]
  · intro z low
    rw [attached.used,owned.reserved z low,Bool.or_true]
  · intro σ inside there
    rw [attached.ptr σ inside,if_neg (old there)]
  · intro σ inside other
    have apart : σ ≠ τ := by
      rintro rfl
      exact other attached.owner
    rw [attached.ptr σ inside,if_neg apart]
  · intro x low
    refine attached.view x ?_ ?_ ?_
    · rintro rfl
      exact Nat.lt_irrefl _ low
    · rintro rfl
      exact absurd (owned.free_data free) (by omega)
    · intro σ inner there same
      have behind := (owned.data σ inner.within there).1
      rw [same] at behind
      omega
  · intro z
    rw [attached.used,Bool.or_eq_true,decide_eq_true_eq]
    constructor
    · rintro (same | marked)
      · exact .inr ⟨τ,attached.within,attached.empty,by rw [here]; exact present,by rw [here]; exact same.symm⟩
      · exact .inl marked
    · rintro (marked | ⟨σ,inside,empty,there,same⟩)
      · exact .inr marked
      · rw [attached.ptr σ inside] at there same
        split_ifs at there same
        · exact .inl same.symm
        · exact absurd empty there
  · intro σ leaf there
    rw [attached.ptr σ leaf.within] at there ⊢
    by_cases new : σ = τ
    · rw [if_pos new,new,if_pos attached.empty,attached.zeroed]
    · rw [if_neg new] at there ⊢
      rw [if_neg there]
      exact data leaf there

theorem Attached.space_eq (attached : Attached fs i F F' v v' τ b) : space fs v = space fs v' + 1 := by
  have member : b.toNat ∈ (Finset.range fs.sb.size.toNat).filter (fun z => Fs.used fs v z = false) :=
    Finset.mem_filter.mpr ⟨Finset.mem_range.mpr attached.free.1,attached.free.2⟩
  have erased : (Finset.range fs.sb.size.toNat).filter (fun z => Fs.used fs v' z = false) =
      ((Finset.range fs.sb.size.toNat).filter (fun z => Fs.used fs v z = false)).erase b.toNat := by
    apply Finset.ext
    intro z
    rw [Finset.mem_erase,Finset.mem_filter,Finset.mem_filter,attached.used,Bool.or_eq_false_iff,
      decide_eq_false_iff_not]
    tauto
  rw [space,space,erased,Finset.card_erase_add_one member]

theorem space_eq_zero (none : ∀ b, ¬Free fs v b) : space fs v = 0 := by
  by_contra positive
  obtain ⟨z,member⟩ := Finset.card_pos.mp (Nat.pos_of_ne_zero positive)
  obtain ⟨bound,clear⟩ := Finset.mem_filter.mp member
  rw [Finset.mem_range] at bound
  have value : (UInt32.ofNat z).toNat = z := by
    have := fs.sb.size.toNat_lt
    rw [UInt32.toNat_ofNat']
    omega
  exact none (UInt32.ofNat z) (by rw [Free,value]; exact ⟨bound,clear⟩)

theorem attached_root (owned : Owned fs F v) (free : Free fs v b) {k : Fin 13} (empty : (F i).addrs k = 0) :
    Attached fs i F (update F i {F i with addrs := update (F i).addrs k b}) v (taken fs v b)
      ⟨(i,k),[]⟩ b := by
  have bitmap := owned.free_bitmap free
  refine ⟨free,rfl,Nat.zero_le _,empty,by simp,?_,used_taken bitmap free.1,taken_self,?_⟩
  · refine Slot.ptr_attach (owned.free_pos free) empty ?_ ?_ ?_ ?_
    · intro j k' path impossible
      simp at impossible
    · rintro ⟨j,k'⟩
      simp only [roots]
      by_cases file : j = i
      · by_cases index : k' = k
        · simp [file,index]
        · simp [file,update_of_ne index,Ne.symm index]
      · simp [update_of_ne file,Ne.symm file]
    · intro k'
      rw [entry,taken_self]
      exact Bytes.u32_zeroed _ _
    · intro j k' path inner there
      rw [if_neg (by simp)]
      exact congrArg (word · k') (taken_other (owned.ne_bitmap inner.within there) (owned.free_ne free inner.within))
  · intro x bitmap' new _
    exact taken_other bitmap' new

theorem attached_entry (owned : Owned fs F v) (free : Free fs v b) {k : Fin 512} (node : (F i).addrs 12 ≠ 0)
    (empty : ptr F v ⟨(i,12),[k]⟩ = 0) :
    Attached fs i F F v
      (update (taken fs v b) ((F i).addrs 12) ((v ((F i).addrs 12)).setU32 (4 * k.val) b)) ⟨(i,12),[k]⟩ b := by
  have within : Slot.Within depth (⟨(i,12),[k]⟩ : Place) := Nat.le_refl _
  have inner : Slot.Inner depth (⟨(i,12),[]⟩ : Place) := Nat.zero_lt_one
  have node' : ptr F v ⟨(i,12),[]⟩ ≠ 0 := node
  have bitmap : (F i).addrs 12 ≠ fs.sb.bmapstart := owned.ne_bitmap inner.within node'
  have new : (F i).addrs 12 ≠ b := owned.free_ne free inner.within
  refine ⟨free,rfl,within,empty,by simp,?_,?_,?_,?_⟩
  · refine Slot.ptr_attach (owned.free_pos free) empty ?_ (by simp) ?_ ?_
    · intro j k' path same
      simp only [Slot.mk.injEq,List.cons.injEq] at same
      obtain ⟨rfl,_,rfl⟩ := same
      exact node
    · intro k'
      rw [entry,update_of_ne new.symm,taken_self]
      exact Bytes.u32_zeroed _ _
    · intro j k' path inner' there
      rw [entry]
      by_cases same : Slot.ptr (roots F) (entry v) ⟨j,path⟩ = (F i).addrs 12
      · have slots := owned.distinct ⟨j,path⟩ ⟨(i,12),[]⟩ inner'.within inner.within there same
        simp only [Slot.mk.injEq] at slots
        obtain ⟨rfl,rfl⟩ := slots
        rw [same,update_self,word,Bytes.u32_setU32_word _ _ _ _ (by have := k.isLt; simp only [bsize]; omega)]
        simp only [Slot.mk.injEq,List.cons.injEq,true_and,and_true,Fin.ext_iff,eq_comm]
        rfl
      · have differs : (⟨(i,12),[k]⟩ : Place) ≠ ⟨j,k' :: path⟩ := by
          intro equal
          simp only [Slot.mk.injEq,List.cons.injEq] at equal
          obtain ⟨rfl,_,rfl⟩ := equal
          exact same rfl
        rw [update_of_ne same,if_neg differs]
        exact congrArg (word · k') (taken_other (owned.ne_bitmap inner'.within there) (owned.free_ne free inner'.within))
  · intro z
    rw [used,update_of_ne bitmap.symm]
    exact used_taken (owned.free_bitmap free) free.1 z
  · rw [update_of_ne new.symm,taken_self]
  · intro x bitmap' new' others
    have parent : (F i).addrs 12 ≠ x := others ⟨(i,12),[]⟩ inner node'
    rw [update_of_ne parent.symm]
    exact taken_other bitmap' new'

def gap (F : Files) (i : UInt32) (last : Nat) : Nat := if ndirect ≤ last ∧ (F i).addrs 12 = 0 then 1 else 0

theorem Evolved.gap_le (evolved : Evolved fs i F F' v v') (last : Nat) : gap F' i last ≤ gap F i last := by
  have keeps : (F i).addrs 12 ≠ 0 → (F' i).addrs 12 = (F i).addrs 12 := evolved.keeps ⟨(i,12),[]⟩ (Nat.zero_le _)
  rw [gap,gap]
  split_ifs with new old
  · exact Nat.le_refl 1
  · have there : (F i).addrs 12 ≠ 0 := fun missing => old ⟨new.1,missing⟩
    exact absurd ((keeps there).symm.trans new.2) there
  · exact Nat.zero_le 1
  · exact Nat.le_refl 0

/-- Block `bn` of file `i` was found or allocated; blocks up to `last` may be asked for next. -/
structure Mapped (fs : Volume) (i : UInt32) (bn last : Nat) (F F' : Files) (v v' : Blockno → Block) (budget budget' : Finset Blockno) (r : Blockno × Inode) (s' : Sys) : Prop where
  grown : Grown fs i F F' v v'
  track : Track fs s' v' ∅ ∅ budget'
  inode : r.2 = F' i
  stored : r.1 = ptr F' v' (slot i bn)
  present : r.1 ≠ 0
  only : ∀ σ : Place, σ.Leaf depth → σ ≠ slot i bn → ptr F' v' σ = ptr F v σ
  wider : budget ⊆ budget'
  listed : r.1 ∈ budget'
  node : ndirect ≤ last → (F' i).addrs 12 ≠ 0 → (F' i).addrs 12 ∈ budget'
  cost : budget'.card + gap F' i last ≤ budget.card + 1 + gap F i last
  space : space fs v + gap F' i last ≤ space fs v' + 1 + gap F i last

/-- What an allocation for a block up to `last` needs of the log: room, and that the blocks written besides
the new ones are listed. -/
structure Ready (fs : Volume) (i : UInt32) (last : Nat) (F : Files) (budget : Finset Blockno) : Prop where
  bitmap : fs.sb.bmapstart ∈ budget
  node : ndirect ≤ last → (F i).addrs 12 ≠ 0 → (F i).addrs 12 ∈ budget
  cost : budget.card + gap F i last + 3 ≤ limit fs

/-- The panic of `balloc` when the disk has fewer than `need` free blocks. -/
def OutOfBlocks (fs : Volume) (v : Blockno → Block) (need : Nat) (fail : Fault → Prop) : Prop :=
  space fs v < need → fail (.panic "balloc: out of blocks")

variable {s : Sys} {budget : Finset Blockno} {fail : Fault → Prop}

theorem OutOfBlocks.of_none (full : OutOfBlocks fs v 1 fail) (none : ∀ b, ¬Free fs v b) :
    fail (.panic "balloc: out of blocks") := full (by rw [space_eq_zero none]; exact Nat.zero_lt_one)

theorem rootPointer_present {ip : Inode} {k : Fin 13} (present : ip.addrs k ≠ 0) :
    rootPointer fs ip k s = .ok ((ip.addrs k,ip),s) := by
  rw [rootPointer,if_neg present]
  rfl

theorem rootPointer_hole {ip : Inode} {k : Fin 13} (owned : Owned fs F v) (track : Track fs s v ∅ ∅ budget) (empty : ip.addrs k = 0)
    (bitmap : fs.sb.bmapstart ∈ budget) (room : budget.card + 2 ≤ limit fs) (full : OutOfBlocks fs v 1 fail) :
    Meets (rootPointer fs ip k) s
      (fun r s' => ∃ b, Free fs v b ∧ r = (b,{ip with addrs := update ip.addrs k b}) ∧
        Track fs s' (taken fs v b) ∅ ∅ (insert b budget)) fail := by
  rw [rootPointer,if_pos empty]
  have alloc := balloc_meets track (Finset.notMem_empty _) bitmap
    (fun _ free => ⟨Finset.notMem_empty _,owned.free_home free⟩) room track.few full.of_none
  refine alloc.bind ?_
  rintro b s' ⟨free,track'⟩
  exact .pure_intro ⟨b,free,rfl,track'⟩

theorem entryPointer_present {addr : Blockno} {k : Nat} (track : Track fs s v ∅ ∅ budget)
    (present : word (v addr) k ≠ 0) :
    Meets (entryPointer fs addr k) s (fun r s' => r = word (v addr) k ∧ Track fs s' v ∅ ∅ budget) fail := by
  refine bread_step track (Finset.notMem_empty _) track.few fun s₁ track₁ => ?_
  refine bdata_step track₁ (Finset.mem_insert_self _ _) ?_
  rw [if_neg present]
  refine brelse_step track₁ (Finset.notMem_empty _) (Finset.notMem_empty _) fun s₂ track₂ => ?_
  exact .pure_intro ⟨rfl,track₂⟩

theorem entryPointer_hole {addr : Blockno} {k : Nat} (owned : Owned fs F v) (track : Track fs s v ∅ ∅ budget) (empty : word (v addr) k = 0)
    (apart : addr ≠ fs.sb.bmapstart) (unused : ∀ b, Free fs v b → b ≠ addr) (bitmap : fs.sb.bmapstart ∈ budget)
    (listed : addr ∈ budget) (room : budget.card + 3 ≤ limit fs) (full : OutOfBlocks fs v 1 fail) :
    Meets (entryPointer fs addr k) s
      (fun b s' => Free fs v b ∧
        Track fs s' (update (taken fs v b) addr ((v addr).setU32 (4 * k) b)) ∅ ∅ (insert b budget)) fail := by
  refine bread_step track (Finset.notMem_empty _) track.few fun s₁ track₁ => ?_
  have mine : addr ∈ insert addr (∅ : Finset Blockno) := Finset.mem_insert_self _ _
  refine bdata_step track₁ mine ?_
  rw [if_pos empty]
  have most := limit_le fs
  have alloc := balloc_meets track₁ (by simpa using apart.symm) bitmap
    (fun b free => ⟨by simpa using unused b free,owned.free_home free⟩) (by omega) (by simp; omega) full.of_none
  refine alloc.bind ?_
  rintro b s₂ ⟨free,track₂⟩
  refine bdata_step track₂ mine ?_
  rw [taken_other apart (unused b free).symm]
  refine bset_step track₂ mine fun s₃ track₃ => ?_
  have grown := Finset.card_insert_le b budget
  refine logWrite_listed track₃ (by omega) (Finset.mem_insert_of_mem listed) fun s₄ track₄ => ?_
  refine brelse_step track₄ (Finset.notMem_empty _) (Finset.notMem_empty _) fun s₅ track₅ => ?_
  exact .pure_intro ⟨free,track₅⟩

theorem ptr_slot_direct {bn : Nat} (direct : bn < ndirect) :
    ptr F v (slot i bn) = (F i).addrs ⟨bn,direct_lt direct⟩ := by
  rw [slot,dif_pos direct]
  rfl

theorem slot_indirect {bn : Nat} (far : ¬bn < ndirect) : slot i bn = ⟨(i,12),[Fin.ofNat 512 (bn - ndirect)]⟩ := by
  rw [slot,dif_neg far]

theorem ofNat_index {bn : Nat} (near : bn < maxfile) : (Fin.ofNat 512 (bn - ndirect)).val = bn - ndirect := by
  have words : nindirect = 512 := rfl
  simp only [maxfile,ndirect,words] at *
  rw [Fin.val_ofNat,Nat.mod_eq_of_lt (by omega)]

theorem ptr_slot_indirect {bn : Nat} (far : ¬bn < ndirect) (near : bn < maxfile) (node : (F i).addrs 12 ≠ 0) :
    ptr F v (slot i bn) = word (v ((F i).addrs 12)) (bn - ndirect) := by
  have present : Slot.ptr (roots F) (entry v) ⟨(i,12),[]⟩ ≠ 0 := node
  rw [slot_indirect far,ptr,Slot.ptr_child_of_ne _ present]
  rw [entry,ofNat_index near]
  rfl

theorem ptr_slot_missing {bn : Nat} (far : ¬bn < ndirect) (missing : (F i).addrs 12 = 0) : ptr F v (slot i bn) = 0 := by
  have empty : Slot.ptr (roots F) (entry v) ⟨(i,12),[]⟩ = 0 := missing
  rw [slot_indirect far,ptr,Slot.ptr_child,if_pos empty]

theorem bmap_indirect {ip : Inode} {bn : Nat} (far : ¬bn < ndirect) (near : bn < maxfile) :
    bmap fs ip bn = (do
      let (addr,ip) ← rootPointer fs ip 12
      let addr ← entryPointer fs addr (bn - ndirect)
      return (addr,ip)) := by
  have inside : bn - ndirect < nindirect := by
    simp only [maxfile] at near
    omega
  rw [bmap,dif_neg far,if_pos inside]

theorem bmap_present {bn : Nat} (track : Track fs s v ∅ ∅ budget) (near : bn < maxfile)
    (present : ptr F v (slot i bn) ≠ 0) :
    Meets (bmap fs (F i) bn) s (fun r s' => r = (ptr F v (slot i bn),F i) ∧ Track fs s' v ∅ ∅ budget) fail := by
  by_cases direct : bn < ndirect
  · rw [ptr_slot_direct direct] at present ⊢
    rw [bmap,dif_pos direct]
    exact .of_ok (rootPointer_present present) ⟨rfl,track⟩
  · have node : (F i).addrs 12 ≠ 0 := fun missing => present (ptr_slot_missing direct missing)
    rw [ptr_slot_indirect direct near node] at present ⊢
    rw [bmap_indirect direct near]
    refine .step (rootPointer_present node) ?_
    refine (entryPointer_present track present).bind ?_
    rintro _ s' ⟨rfl,track'⟩
    exact .pure_intro ⟨rfl,track'⟩

private theorem entry_hole {bn last : Nat} (track : Track fs s v ∅ ∅ budget) (owned : Owned fs F v) (far : ¬bn < ndirect)
    (near : bn < maxfile) (node : (F i).addrs 12 ≠ 0) (empty : ptr F v (slot i bn) = 0) (upto : bn ≤ last)
    (ready : Ready fs i last F budget) (full : OutOfBlocks fs v 1 fail) :
    Meets (entryPointer fs ((F i).addrs 12) (bn - ndirect)) s
      (fun b s' => ∃ v', Mapped fs i bn last F F v v' budget (insert b budget) (b,F i) s') fail := by
  have inner : Slot.Inner depth (⟨(i,12),[]⟩ : Place) := Nat.zero_lt_one
  have node' : ptr F v ⟨(i,12),[]⟩ ≠ 0 := node
  have deep : ndirect ≤ last := by omega
  have cost := ready.cost
  have hole : word (v ((F i).addrs 12)) (bn - ndirect) = 0 := by
    rw [← ptr_slot_indirect far near node]
    exact empty
  refine (entryPointer_hole owned track hole (owned.ne_bitmap inner.within node')
    (fun b free => (owned.free_ne free inner.within).symm) ready.bitmap (ready.node deep node) (by omega) full).mono ?_
    (fun _ => id)
  rintro b s' ⟨free,track'⟩
  rw [slot_indirect far] at empty
  have attached := attached_entry owned free node empty
  rw [ofNat_index near] at attached
  have grown := attached.grown owned
  refine ⟨_,grown,track',rfl,?_,owned.free_pos free,?_,Finset.subset_insert _ _,Finset.mem_insert_self _ _,?_,?_,?_⟩
  · rw [slot_indirect far,attached.ptr _ attached.within,if_pos rfl]
  · intro σ leaf other
    rw [slot_indirect far] at other
    rw [attached.ptr σ leaf.within,if_neg other]
  · exact fun _ _ => Finset.mem_insert_of_mem (ready.node deep node)
  · have := Finset.card_insert_le b budget
    omega
  · have := attached.space_eq
    omega

theorem bmap_hole {bn last : Nat} (track : Track fs s v ∅ ∅ budget) (owned : Owned fs F v) (near : bn < maxfile)
    (empty : ptr F v (slot i bn) = 0) (upto : bn ≤ last) (ready : Ready fs i last F budget)
    (full : OutOfBlocks fs v (1 + gap F i last) fail) :
    Meets (bmap fs (F i) bn) s
      (fun r s' => ∃ F' v' budget', Mapped fs i bn last F F' v v' budget budget' r s') fail := by
  have cost := ready.cost
  have few {need : Nat} (less : need ≤ 1 + gap F i last) : OutOfBlocks fs v need fail := fun none => full (by omega)
  by_cases direct : bn < ndirect
  · rw [ptr_slot_direct direct] at empty
    rw [bmap,dif_pos direct]
    refine (rootPointer_hole owned track empty ready.bitmap (by omega) (few (by omega))).mono ?_ (fun _ => id)
    rintro r s' ⟨b,free,rfl,track'⟩
    have attached := attached_root owned free empty
    have other : (12 : Fin 13) ≠ ⟨bn,direct_lt direct⟩ := by
      intro same
      have values := congrArg Fin.val same
      simp only [ndirect] at direct
      simp at values
      omega
    have node : (update F i {F i with addrs := update (F i).addrs ⟨bn,direct_lt direct⟩ b} i).addrs 12 =
        (F i).addrs 12 := by
      rw [update_self]
      exact update_of_ne other _ _
    refine ⟨_,_,_,attached.grown owned,track',?_,?_,owned.free_pos free,?_,Finset.subset_insert _ _,
      Finset.mem_insert_self _ _,?_,?_,?_⟩
    · rw [update_self]
    · have here := attached.ptr _ attached.within
      rw [if_pos rfl] at here
      rw [slot,dif_pos direct]
      exact here.symm
    · intro σ leaf other
      rw [slot,dif_pos direct] at other
      rw [attached.ptr σ leaf.within,if_neg other]
    · rw [node]
      exact fun deep present => Finset.mem_insert_of_mem (ready.node deep present)
    · have := Finset.card_insert_le b budget
      rw [gap,gap,node]
      omega
    · have := attached.space_eq
      rw [gap,gap,node]
      omega
  · have deep : ndirect ≤ last := by omega
    rw [bmap_indirect direct near]
    by_cases missing : (F i).addrs 12 = 0
    · have gap₀ : gap F i last = 1 := if_pos ⟨deep,missing⟩
      refine (rootPointer_hole owned track missing ready.bitmap (by omega) (few (by omega))).bind ?_
      rintro r s₁ ⟨top,free,rfl,track₁⟩
      have attached := attached_root owned free missing
      have grown := attached.grown owned
      have spent := attached.space_eq
      generalize made : update F i {F i with addrs := update (F i).addrs 12 top} = F₁ at attached grown
      have inode : {F i with addrs := update (F i).addrs 12 top} = F₁ i := by rw [← made,update_self]
      have root : (F₁ i).addrs 12 = top := by rw [← inode]; exact update_self (12 : Fin 13) top (F i).addrs
      have gap₁ : gap F₁ i last = 0 := if_neg (fun both => owned.free_pos free (root.symm.trans both.2))
      have size := Finset.card_insert_le top budget
      have ready₁ : Ready fs i last F₁ (insert top budget) :=
        ⟨Finset.mem_insert_of_mem ready.bitmap,fun _ _ => by rw [root]; exact Finset.mem_insert_self _ _,by omega⟩
      have full₁ : OutOfBlocks fs (taken fs v top) 1 fail := fun none => full (by omega)
      have still : ptr F₁ (taken fs v top) (slot i bn) = 0 := by
        rw [ptr_slot_indirect direct near (by rw [root]; exact owned.free_pos free),root,taken_self]
        exact Bytes.u32_zeroed _ _
      have node₁ : (F₁ i).addrs 12 ≠ 0 := by rw [root]; exact owned.free_pos free
      have fill := entry_hole track₁ grown.owned direct near node₁ still upto ready₁ full₁
      rw [root] at fill
      dsimp only
      rw [inode]
      refine fill.bind ?_
      rintro b s₂ ⟨v₂,mapped⟩
      refine .pure_intro ⟨F₁,v₂,insert b (insert top budget),grown.trans mapped.grown,mapped.track,rfl,mapped.stored,
        mapped.present,?_,(Finset.subset_insert _ _).trans (Finset.subset_insert _ _),mapped.listed,mapped.node,?_,?_⟩
      · intro σ leaf other
        have inner : σ ≠ ⟨(i,12),[]⟩ := by
          rintro rfl
          exact Nat.zero_ne_one leaf
        rw [mapped.only σ leaf other,attached.ptr σ leaf.within,if_neg inner]
      · have := mapped.cost
        omega
      · have := mapped.space
        omega
    · refine .step (rootPointer_present missing) ?_
      refine (entry_hole track owned direct near missing empty upto ready (few (by omega))).bind ?_
      rintro b s' ⟨v',mapped⟩
      exact .pure_intro ⟨F,v',_,mapped⟩

end

end Xv6Ext2.Fs
