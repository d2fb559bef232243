import Mathlib
import Xv6Ext2.Ext2.Bmap

/-! What `ext2_bmap` does to a well-formed inode: it fills empty slots of the pointer tree with fresh
zeroed blocks and changes nothing else. -/
namespace Xv6Ext2.Ext2
open Lib Bio Function

/-- Number of blocks the allocator can still hand out for an inode. -/
def room (fs : Mount) (o : Obs) (inum : UInt32) : Nat :=
  ((Finset.range (8 * bsize)).filter (Clear fs o inum)).card

/-- The inode and the device after changes to the blocks of the inode and to the bitmap only, with no
block taken from the inode. -/
structure Evolved (fs : Mount) (depth : Fin 15 → Nat) (ip ip' : Inode) (o o' : Obs) : Prop where
  wf : Wf fs depth ip' o'
  inode : ip' = {ip with addrs := ip'.addrs}
  keeps : ∀ σ : Place, σ.Within depth → ptr ip o σ ≠ 0 → ptr ip' o' σ = ptr ip o σ
  outside : ∀ b, b ≠ bitmapOf fs o ip.inum →
    (∀ σ : Place, σ.Within depth → ptr ip' o' σ ≠ 0 → ptr ip' o' σ ≠ b) →
    o'.view b = o.view b ∧ o'.disk b = o.disk b

/-- Some empty slots were filled with zeroed blocks, and data blocks are as they were. -/
structure Grown (fs : Mount) (depth : Fin 15 → Nat) (ip ip' : Inode) (o o' : Obs) : Prop
    extends Evolved fs depth ip ip' o o' where
  data : ∀ σ : Place, σ.Leaf depth → ptr ip' o' σ ≠ 0 →
    o'.view (ptr ip' o' σ) = if ptr ip o σ = 0 then Bytes.zero bsize else o.view (ptr ip o σ)

section

variable {fs : Mount} {depth : Fin 15 → Nat} {ip ip' ip₁ : Inode} {o o' o₁ : Obs}

theorem Wf.shifted_plain (wf : Wf fs depth ip o) {z : Nat} (clear : Clear fs o ip.inum z) :
    bitmapOf fs o ip.inum + UInt32.ofNat z ≠ 1 ∧
      bitmapOf fs o ip.inum + UInt32.ofNat z ≠ bitmapOf fs o ip.inum ∧
      bitmapOf fs o ip.inum + UInt32.ofNat z ≠ tableOf fs o ip.inum := by
  have plain := (wf.fresh z clear).2.1
  simp only [Reserved,not_or] at plain
  exact plain

theorem bitmapOf_congr (same : o'.view 1 = o.view 1) (inum : UInt32) :
    bitmapOf fs o' inum = bitmapOf fs o inum := by
  rw [bitmapOf,bitmapOf,desc,desc,same]

theorem tableOf_congr (same : o'.view 1 = o.view 1) (inum : UInt32) :
    tableOf fs o' inum = tableOf fs o inum := by
  rw [tableOf,tableOf,desc,desc,same]

theorem Reserved.congr (same : o'.view 1 = o.view 1) (inum : UInt32) (b : Blockno) :
    Reserved fs o' inum b ↔ Reserved fs o inum b := by
  rw [Reserved,Reserved,bitmapOf_congr same,tableOf_congr same]

namespace Evolved

theorem inum_eq (evolved : Evolved fs depth ip ip' o o') : ip'.inum = ip.inum := by
  rw [evolved.inode]

theorem desc_view (evolved : Evolved fs depth ip ip' o o') (ne : bitmapOf fs o ip.inum ≠ 1) :
    o'.view 1 = o.view 1 := by
  refine (evolved.outside 1 ne.symm ?_).1
  intro σ within present same
  exact evolved.wf.plain σ within present (.inl same)

theorem refl (wf : Wf fs depth ip o) : Evolved fs depth ip ip o o where
  wf := wf
  inode := rfl
  keeps _ _ _ := rfl
  outside _ _ _ := ⟨rfl,rfl⟩

theorem trans (first : Evolved fs depth ip ip' o o') (second : Evolved fs depth ip' ip₁ o' o₁)
    (ne : bitmapOf fs o ip.inum ≠ 1) : Evolved fs depth ip ip₁ o o₁ where
  wf := second.wf
  inode := by rw [second.inode,first.inode]
  keeps σ within present := by
    have kept := first.keeps σ within present
    rw [second.keeps σ within (by rw [kept]; exact present),kept]
  outside b other apart := by
    have same := first.desc_view ne
    have later := second.outside b (by rw [first.inum_eq,bitmapOf_congr same]; exact other) apart
    have earlier := first.outside b other (fun σ within present same => by
      have kept := second.keeps σ within present
      exact apart σ within (by rw [kept]; exact present) (kept.trans same))
    exact ⟨later.1.trans earlier.1,later.2.trans earlier.2⟩

end Evolved

namespace Grown

theorem refl (wf : Wf fs depth ip o) : Grown fs depth ip ip o o where
  toEvolved := .refl wf
  data σ _ present := by rw [if_neg present]

theorem trans (first : Grown fs depth ip ip' o o') (second : Grown fs depth ip' ip₁ o' o₁)
    (ne : bitmapOf fs o ip.inum ≠ 1) : Grown fs depth ip ip₁ o o₁ where
  toEvolved := first.toEvolved.trans second.toEvolved ne
  data σ leaf present := by
    rw [second.data σ leaf present]
    by_cases empty : ptr ip' o' σ = 0
    · have before : ptr ip o σ = 0 := by
        by_contra present'
        exact present' ((first.keeps σ leaf.within present').symm.trans empty)
      rw [if_pos empty,if_pos before]
    · rw [if_neg empty,first.data σ leaf empty]

end Grown

/-- The fresh block `bitmapOf + z` put into the empty slot `τ`. -/
structure Attached (fs : Mount) (depth : Fin 15 → Nat) (ip ip' : Inode) (o o' : Obs) (τ : Place) (z : Nat) :
    Prop where
  clear : Clear fs o ip.inum z
  within : τ.Within depth
  empty : ptr ip o τ = 0
  inode : ip' = {ip with addrs := ip'.addrs}
  held : o'.held = o.held
  ptr : ∀ σ : Place, σ.Within depth →
    ptr ip' o' σ = if σ = τ then bitmapOf fs o ip.inum + UInt32.ofNat z else ptr ip o σ
  bitmap : o'.view (bitmapOf fs o ip.inum) = (o.view (bitmapOf fs o ip.inum)).setBit z
  zeroed : o'.view (bitmapOf fs o ip.inum + UInt32.ofNat z) = Bytes.zero bsize
  view : ∀ b, b ≠ bitmapOf fs o ip.inum → b ≠ bitmapOf fs o ip.inum + UInt32.ofNat z →
    (∀ σ : Place, σ.Inner depth → Ext2.ptr ip o σ ≠ 0 → Ext2.ptr ip o σ ≠ b) → o'.view b = o.view b
  disk : ∀ b, b ≠ bitmapOf fs o ip.inum → b ≠ bitmapOf fs o ip.inum + UInt32.ofNat z → o'.disk b = o.disk b

namespace Attached

variable {τ : Place} {z : Nat}

theorem desc_view (attached : Attached fs depth ip ip' o o' τ z) (wf : Wf fs depth ip o) :
    o'.view 1 = o.view 1 := by
  have plain := wf.shifted_plain attached.clear
  refine attached.view 1 wf.bitmap_ne.symm plain.1.symm ?_
  intro σ inner present same
  exact wf.plain σ inner.within present (.inl same)

theorem clear_iff (attached : Attached fs depth ip ip' o o' τ z) (wf : Wf fs depth ip o) (z' : Nat) :
    Clear fs o' ip.inum z' ↔ Clear fs o ip.inum z' ∧ z' ≠ z := by
  rw [Clear,Clear,bitmapOf_congr (attached.desc_view wf),attached.bitmap,
    bit_setBit _ _ _ attached.clear.2.1,Bool.or_eq_false_iff,decide_eq_false_iff_not]
  tauto

theorem room_eq (attached : Attached fs depth ip ip' o o' τ z) (wf : Wf fs depth ip o) :
    room fs o ip.inum = room fs o' ip.inum + 1 := by
  have member : z ∈ (Finset.range (8 * bsize)).filter (Clear fs o ip.inum) :=
    Finset.mem_filter.mpr ⟨Finset.mem_range.mpr attached.clear.2.1,attached.clear⟩
  have erased : (Finset.range (8 * bsize)).filter (Clear fs o' ip.inum) =
      ((Finset.range (8 * bsize)).filter (Clear fs o ip.inum)).erase z := by
    apply Finset.ext
    intro z'
    rw [Finset.mem_erase,Finset.mem_filter,Finset.mem_filter,attached.clear_iff wf z']
    constructor
    · rintro ⟨bound,clear,other⟩
      exact ⟨other,bound,clear⟩
    · rintro ⟨other,bound,clear⟩
      exact ⟨bound,clear,other⟩
  rw [room,room,erased,Finset.card_erase_add_one member]

theorem grown (attached : Attached fs depth ip ip' o o' τ z) (wf : Wf fs depth ip o) :
    Grown fs depth ip ip' o o' := by
  have same := attached.desc_view wf
  have inum : ip'.inum = ip.inum := by rw [attached.inode]
  obtain ⟨present,plain,unused⟩ := wf.fresh z attached.clear
  have old (σ : Place) (inside : σ.Within depth) (there : Ext2.ptr ip o σ ≠ 0) : σ ≠ τ := by
    rintro rfl
    exact there attached.empty
  refine ⟨⟨⟨?_,?_,?_,?_,?_,?_,?_⟩,attached.inode,?_,?_⟩,?_⟩
  · rw [inum]; exact wf.group
  · rw [attached.held]; exact wf.idle
  · rw [inum,bitmapOf_congr same]; exact wf.bitmap_ne
  · rw [inum,bitmapOf_congr same,tableOf_congr same]; exact wf.table_ne
  · exact wf.distinct.attach unused attached.ptr
  · intro σ inside there
    rw [attached.ptr σ inside] at there ⊢
    rw [inum,Reserved.congr same]
    split_ifs with here
    · exact plain
    · rw [if_neg here] at there
      exact wf.plain σ inside there
  · intro z' clear
    rw [inum] at clear ⊢
    rw [attached.clear_iff wf] at clear
    rw [bitmapOf_congr same,Reserved.congr same]
    obtain ⟨present',plain',unused'⟩ := wf.fresh z' clear.1
    refine ⟨present',plain',?_⟩
    intro σ inside equal
    rw [attached.ptr σ inside] at equal
    split_ifs at equal with here
    · have values := congrArg UInt32.toNat (UInt32.add_right_inj _ |>.mp equal)
      have bound := attached.clear.2.1
      have bound' := clear.1.2.1
      simp only [bsize] at bound bound'
      rw [UInt32.toNat_ofNat',UInt32.toNat_ofNat',Nat.mod_eq_of_lt (by omega),Nat.mod_eq_of_lt (by omega)] at values
      exact clear.2 values.symm
    · exact unused' σ inside equal
  · intro σ inside there
    rw [attached.ptr σ inside,if_neg (old σ inside there)]
  · intro b other apart
    have new : b ≠ bitmapOf fs o ip.inum + UInt32.ofNat z := by
      rintro rfl
      have here := attached.ptr τ attached.within
      rw [if_pos rfl] at here
      exact apart τ attached.within (by rw [here]; exact present) here
    refine ⟨attached.view b other new ?_,attached.disk b other new⟩
    intro σ inner there equal
    have kept := attached.ptr σ inner.within
    rw [if_neg (old σ inner.within there)] at kept
    exact apart σ inner.within (by rw [kept]; exact there) (kept.trans equal)
  · intro σ leaf there
    rw [attached.ptr σ leaf.within] at there ⊢
    by_cases here : σ = τ
    · rw [if_pos here,here,if_pos attached.empty,attached.zeroed]
    · rw [if_neg here] at there ⊢
      rw [if_neg there]
      refine attached.view _ (fun equal => wf.plain σ leaf.within there (.inr (.inl equal)))
        (unused σ leaf.within) ?_
      intro ρ inner present' equal
      -- a data block is no inner node
      have slots := wf.distinct ρ σ inner.within leaf.within present' equal
      rw [slots] at inner
      exact absurd leaf (Nat.ne_of_lt inner)

end Attached

theorem room_full {inum : UInt32} (full : Full (o.view (bitmapOf fs o inum)) (scanLimit fs)) :
    room fs o inum = 0 := by
  rw [room,Finset.card_eq_zero]
  -- with the numeral in place the goal would be unfolded down to the list of all bits
  generalize 8 * bsize = bits
  rw [Finset.filter_eq_empty_iff]
  intro z _ clear
  have used := full z clear.1 clear.2.1
  rw [clear.2.2] at used
  contradiction

theorem balloc_wf (careful : Careful fs.recycle) (wf : Wf fs depth ip o) {h : Blockno → Bool} {d : Dev}
    (state : obs d = {o with held := h})
    (tree : ∀ b, h b = true → ∃ σ : Place, σ.Within depth ∧ ptr ip o σ ≠ 0 ∧ ptr ip o σ = b) :
    Meets (balloc fs ip.inum) d
      (fun r d' => ∃ z, Clear fs o ip.inum z ∧ r = bitmapOf fs o ip.inum + UInt32.ofNat z ∧
        obs d' = {(o.write (bitmapOf fs o ip.inum) ((o.view (bitmapOf fs o ip.inum)).setBit z)).write r
          (Bytes.zero bsize) with held := h})
      (fun _ => room fs o ip.inum = 0) := by
  have place : bitmapOf fs (obs d) ip.inum = bitmapOf fs o ip.inum := by rw [state]; rfl
  have free (b : Blockno) (absent : ∀ σ : Place, σ.Within depth → ptr ip o σ ≠ 0 → ptr ip o σ ≠ b) :
      (obs d).held b = false := by
    rw [state]
    by_contra locked
    obtain ⟨σ,within,present,same⟩ := tree b (by simpa using locked)
    exact absent σ within present same
  have clear {z : Nat} (first : FirstClear ((obs d).view (bitmapOf fs (obs d) ip.inum)) (scanLimit fs) z) :
      Clear fs o ip.inum z := by
    rw [place,state] at first
    exact ⟨first.scanned,first.inside,first.clear⟩
  refine (balloc_meets fs ip.inum d ?_ ?_ ?_ (.inl careful) (fun _ => .inl careful)).mono ?_ ?_
  · exact free 1 (fun σ within present same => wf.plain σ within present (.inl same))
  · intro _
    rw [place]
    exact free _ (fun σ within present same => wf.plain σ within present (.inr (.inl same)))
  · intro _ z _ first
    have unused := (wf.fresh z (clear first)).2.2
    rw [place]
    exact free _ (fun σ within _ => unused σ within)
  · rintro r d' ⟨_,z,o₁,_,first,target,drift,result⟩
    rw [place] at target
    refine ⟨z,clear first,target,?_⟩
    rw [result,drift.careful careful,place,state]
    rfl
  · rintro e (far | full | first)
    · exact absurd wf.group (by omega)
    · rw [place,state] at full
      exact room_full full
    · -- bit 0 stands for the bitmap block itself
      have plain := (wf.shifted_plain (clear first)).2.1
      exact absurd (by simp) plain

theorem attached_root (wf : Wf fs depth ip o) {i : Fin 15} {z : Nat} (clear : Clear fs o ip.inum z)
    (empty : ip.addrs i = 0) :
    Attached fs depth ip {ip with addrs := update ip.addrs i (bitmapOf fs o ip.inum + UInt32.ofNat z)} o
      ((o.write (bitmapOf fs o ip.inum) ((o.view (bitmapOf fs o ip.inum)).setBit z)).write
        (bitmapOf fs o ip.inum + UInt32.ofNat z) (Bytes.zero bsize)) ⟨i,[]⟩ z := by
  obtain ⟨present,plain,unused⟩ := wf.fresh z clear
  have apart := (wf.shifted_plain clear).2.1
  refine ⟨clear,Nat.zero_le _,empty,rfl,rfl,?_,?_,?_,?_,?_⟩
  · refine Slot.ptr_attach present empty ?_ ?_ ?_ ?_
    · intro j k path impossible
      simp at impossible
    · intro j
      by_cases same : j = i
      · simp [same]
      · simp [update_of_ne same,Ne.symm same]
    · intro k
      simp only [entry,Obs.write,update_self]
      exact Bytes.u32_zeroed _ _
    · intro j k path inner there
      have other := unused ⟨j,path⟩ inner.within
      have bitmap : ptr ip o ⟨j,path⟩ ≠ bitmapOf fs o ip.inum := fun equal =>
        wf.plain ⟨j,path⟩ inner.within there (.inr (.inl equal))
      rw [if_neg (by simp),← ptr,entry,entry,Obs.write,Obs.write]
      simp only [update_of_ne other,update_of_ne bitmap]
  · simp [Obs.write,update_of_ne apart.symm]
  · simp [Obs.write]
  · intro b bitmap new _
    simp [Obs.write,update_of_ne new,update_of_ne bitmap]
  · intro b bitmap new
    simp [Obs.write,update_of_ne new,update_of_ne bitmap]

theorem attached_child (wf : Wf fs depth ip o) {i : Fin 15} {k : Fin 512} {path : List (Fin 512)} {z : Nat}
    (clear : Clear fs o ip.inum z) (inner : Slot.Inner depth (⟨i,path⟩ : Place))
    (node : ptr ip o ⟨i,path⟩ ≠ 0) (empty : ptr ip o ⟨i,k :: path⟩ = 0) :
    Attached fs depth ip ip o
      (((o.write (bitmapOf fs o ip.inum) ((o.view (bitmapOf fs o ip.inum)).setBit z)).write
        (bitmapOf fs o ip.inum + UInt32.ofNat z) (Bytes.zero bsize)).set (ptr ip o ⟨i,path⟩)
          ((o.view (ptr ip o ⟨i,path⟩)).setU32 (4 * k.val) (bitmapOf fs o ip.inum + UInt32.ofNat z)))
      ⟨i,k :: path⟩ z := by
  obtain ⟨present,plain,unused⟩ := wf.fresh z clear
  have apart := (wf.shifted_plain clear).2.1
  have nodeBitmap : ptr ip o ⟨i,path⟩ ≠ bitmapOf fs o ip.inum := fun equal =>
    wf.plain ⟨i,path⟩ inner.within node (.inr (.inl equal))
  have nodeNew := unused ⟨i,path⟩ inner.within
  refine ⟨clear,inner,empty,rfl,rfl,?_,?_,?_,?_,?_⟩
  · refine Slot.ptr_attach present empty ?_ ?_ ?_ ?_
    · intro j k' path' same
      simp only [Slot.mk.injEq,List.cons.injEq] at same
      obtain ⟨rfl,_,rfl⟩ := same
      exact node
    · intro j
      simp
    · intro k'
      simp only [entry,Obs.set,Obs.write,update_of_ne nodeNew.symm,update_self]
      exact Bytes.u32_zeroed _ _
    · intro j k' path' inner' there
      have other := unused ⟨j,path'⟩ inner'.within
      have bitmap : ptr ip o ⟨j,path'⟩ ≠ bitmapOf fs o ip.inum := fun equal =>
        wf.plain ⟨j,path'⟩ inner'.within there (.inr (.inl equal))
      rw [← ptr]
      simp only [entry,Obs.set,Obs.write]
      by_cases same : ptr ip o ⟨j,path'⟩ = ptr ip o ⟨i,path⟩
      · have slots := wf.distinct _ _ inner'.within inner.within there same
        simp only [Slot.mk.injEq] at slots
        obtain ⟨rfl,rfl⟩ := slots
        rw [update_self,word,Bytes.u32_setU32_word _ _ _ _ (by have := k.isLt; simp only [bsize]; omega)]
        simp only [Slot.mk.injEq,List.cons.injEq,true_and,and_true,Fin.ext_iff,eq_comm]
        rfl
      · have differs : (⟨i,k :: path⟩ : Place) ≠ ⟨j,k' :: path'⟩ := by
          intro equal
          simp only [Slot.mk.injEq,List.cons.injEq] at equal
          obtain ⟨rfl,_,rfl⟩ := equal
          exact same rfl
        rw [update_of_ne same,update_of_ne other,update_of_ne bitmap,if_neg differs]
  · simp [Obs.set,Obs.write,update_of_ne apart.symm,update_of_ne nodeBitmap.symm]
  · simp [Obs.set,Obs.write,update_of_ne nodeNew.symm]
  · intro b bitmap new others
    have parent : b ≠ ptr ip o ⟨i,path⟩ := (others ⟨i,path⟩ inner node).symm
    simp [Obs.set,Obs.write,update_of_ne new,update_of_ne bitmap,update_of_ne parent]
  · intro b bitmap new
    simp [Obs.set,Obs.write,update_of_ne new,update_of_ne bitmap]

theorem rootPointer_meets (careful : Careful fs.recycle) (wf : Wf fs depth ip o) (i : Fin 15) {d : Dev}
    (state : obs d = o) :
    Meets (rootPointer fs ip i) d
      (fun r d' => Grown fs depth ip r.2 o (obs d') ∧ r.1 = r.2.addrs i ∧ r.1 ≠ 0 ∧
        (ip.addrs i ≠ 0 → r.2 = ip ∧ obs d' = o) ∧ room fs o ip.inum ≤ room fs (obs d') ip.inum + 1)
      (fun _ => ip.addrs i = 0 ∧ room fs o ip.inum = 0) := by
  unfold rootPointer
  by_cases empty : ip.addrs i = 0
  · rw [if_pos empty]
    have alloc := balloc_wf careful wf (h := o.held) (d := d) state
      (fun b locked => absurd locked (by simp [wf.idle b]))
    refine (alloc.excuse (fun _ none => ⟨empty,none⟩)).bind ?_
    rintro r d' ⟨z,clear,rfl,result⟩
    have attached := attached_root wf clear empty
    have settled : obs d' = (o.write (bitmapOf fs o ip.inum) ((o.view (bitmapOf fs o ip.inum)).setBit z)).write
        (bitmapOf fs o ip.inum + UInt32.ofNat z) (Bytes.zero bsize) := result
    refine .pure_intro ⟨by rw [settled]; exact attached.grown wf,by simp,(wf.fresh z clear).1,fun present => absurd empty present,?_⟩
    rw [settled,attached.room_eq wf]
  · rw [if_neg empty]
    rw [← state] at wf ⊢
    exact .pure_intro ⟨.refl wf,rfl,empty,fun _ => ⟨rfl,rfl⟩,Nat.le_succ _⟩

theorem entryPointer_present (fs : Mount) (ip : Inode) {b : Blockno} {k : Nat} {d : Dev} (bound : k < nindirect)
    (held : (obs d).held b = true) (present : word ((obs d).view b) k ≠ 0) :
    entryPointer fs ip b k d = .ok (word ((obs d).view b) k,d) := by
  rw [entryPointer,if_pos bound,bind_ok (bdata_run held),if_neg present]
  rfl

theorem entryPointer_meets (careful : Careful fs.recycle) (wf : Wf fs depth ip o) (i : Fin 15) (k : Fin 512)
    (deep : 1 ≤ depth i) (node : ip.addrs i ≠ 0) {d : Dev} (state : obs d = o.lock (ip.addrs i)) :
    Meets (entryPointer fs ip (ip.addrs i) k) d
      (fun r d' => ∃ o', obs d' = o'.lock (ip.addrs i) ∧ Grown fs depth ip ip o o' ∧ r = ptr ip o' ⟨i,[k]⟩ ∧
        r ≠ 0 ∧ (ptr ip o ⟨i,[k]⟩ ≠ 0 → o' = o) ∧ room fs o ip.inum ≤ room fs o' ip.inum + 1)
      (fun _ => ptr ip o ⟨i,[k]⟩ = 0 ∧ room fs o ip.inum = 0) := by
  have held : (obs d).held (ip.addrs i) = true := by simp [state,Obs.lock]
  have view : (obs d).view = o.view := by rw [state]; rfl
  have entry : ptr ip o ⟨i,[k]⟩ = word (o.view (ip.addrs i)) k := Slot.ptr_child_of_ne k node
  have bound : k.val < nindirect := k.isLt
  by_cases empty : ptr ip o ⟨i,[k]⟩ = 0
  · rw [entryPointer,if_pos bound]
    refine .step (bdata_run held) ?_
    rw [view,if_pos (entry ▸ empty)]
    have alloc := balloc_wf careful wf (h := update o.held (ip.addrs i) true) (d := d) state (by
      intro b locked
      by_cases same : b = ip.addrs i
      · exact ⟨⟨i,[]⟩,Nat.zero_le _,node,same.symm⟩
      · simp [update_of_ne same,wf.idle b] at locked)
    refine (alloc.excuse (fun _ none => ⟨empty,none⟩)).bind ?_
    rintro r d₁ ⟨z,clear,rfl,result⟩
    have inner : Slot.Inner depth (⟨i,[]⟩ : Place) := deep
    have node' : ptr ip o ⟨i,[]⟩ ≠ 0 := node
    have attached := attached_child wf clear inner node' empty
    have bitmap : ip.addrs i ≠ bitmapOf fs o ip.inum := fun equal =>
      wf.plain ⟨i,[]⟩ inner.within node' (.inr (.inl equal))
    have new : ip.addrs i ≠ bitmapOf fs o ip.inum + UInt32.ofNat z :=
      (wf.fresh z clear).2.2 ⟨i,[]⟩ inner.within
    have held₁ : (obs d₁).held (ip.addrs i) = true := by simp [result]
    have view₁ : (obs d₁).view (ip.addrs i) = o.view (ip.addrs i) := by
      simp [result,Obs.write,update_of_ne new,update_of_ne bitmap]
    refine .step (bdata_run held₁) ?_
    rw [view₁]
    obtain ⟨d₂,ran₂,stored⟩ := bset_run held₁ ((o.view (ip.addrs i)).setU32 (4 * k.val)
      (bitmapOf fs o ip.inum + UInt32.ofNat z))
    refine .step ran₂ (.pure_intro ⟨_,?_,attached.grown wf,?_,(wf.fresh z clear).1,
      fun present => absurd empty present,?_⟩)
    · rw [stored,result]
      rfl
    · rw [attached.ptr _ attached.within,if_pos rfl]
    · rw [attached.room_eq wf]
  · have run := entryPointer_present fs ip bound held (by rw [view,← entry]; exact empty)
    refine .of_ok run ⟨o,state,.refl wf,by rw [view,entry],?_,fun _ => rfl,by omega⟩
    rw [view,← entry]
    exact empty

structure Mapped (fs : Mount) (depth : Fin 15 → Nat) (ip : Inode) (o : Obs) (τ : Place) (r : Blockno × Inode)
    (o' : Obs) : Prop where
  grown : Grown fs depth ip r.2 o o'
  stored : r.1 = ptr r.2 o' τ
  present : r.1 ≠ 0
  root_kept : ip.addrs τ.root ≠ 0 → r.2 = ip
  same : ptr ip o τ ≠ 0 → r.2 = ip ∧ o' = o
  room : room fs o ip.inum ≤ room fs o' ip.inum + 2

private theorem through_meets (careful : Careful fs.recycle) (wf : Wf fs depth ip o) (i : Fin 15) (k : Fin 512)
    (deep : 1 ≤ depth i) {d : Dev} (state : obs d = o) (use : Blockno → Inode → Blockno → K (Blockno × Inode))
    {post : Blockno × Inode → Dev → Prop} {fail : Fault → Prop}
    (full : ∀ e, ptr ip o ⟨i,[k]⟩ = 0 ∧ room fs o ip.inum < 2 → fail e)
    (used : ∀ ip₁ o₁ d₁, Mapped fs depth ip o ⟨i,[k]⟩ (ptr ip₁ o₁ ⟨i,[k]⟩,ip₁) o₁ → ip₁.addrs i ≠ 0 →
      obs d₁ = o₁.lock (ip₁.addrs i) → Meets (use (ip₁.addrs i) ip₁ (ptr ip₁ o₁ ⟨i,[k]⟩)) d₁ post fail) :
    Meets (do
        let (top,ip') ← rootPointer fs ip i
        bread fs.recycle top
        let addr ← entryPointer fs ip' top k
        use top ip' addr) d post fail := by
  have top := rootPointer_meets careful wf i state
  refine (top.excuse ?_).bind ?_
  · rintro e ⟨empty,none⟩
    refine full e ⟨?_,by omega⟩
    rw [ptr,Slot.ptr_child,Slot.ptr_root,empty,if_pos rfl]
  · rintro ⟨top,ip₁⟩ d₁ ⟨grown₁,stored₁,present₁,kept₁,room₁⟩
    dsimp only at grown₁ stored₁ present₁ kept₁ room₁ ⊢
    subst stored₁
    obtain ⟨d₂,ran₂,locked⟩ := bread_run (b := ip₁.addrs i) (careful d₁) (grown₁.wf.idle _)
    refine .step ran₂ ?_
    refine ((entryPointer_meets careful grown₁.wf i k deep present₁ locked).excuse ?_).bind ?_
    · rintro e ⟨empty,none⟩
      rw [grown₁.inum_eq] at none
      refine full e ⟨?_,by omega⟩
      by_contra there
      have kept := grown₁.keeps ⟨i,[k]⟩ deep there
      rw [kept] at empty
      exact there empty
    · rintro addr d₃ ⟨o₃,locked₃,grown₃,rfl,present₃,kept₃,room₃⟩
      rw [grown₁.inum_eq] at room₃
      refine used ip₁ o₃ d₃ ⟨grown₁.trans grown₃ wf.bitmap_ne,rfl,present₃,fun root => (kept₁ root).1,?_,by omega⟩
        present₁ locked₃
      intro there
      have root : ip.addrs i ≠ 0 := by
        intro empty
        rw [ptr,Slot.ptr_child,Slot.ptr_root,empty,if_pos rfl] at there
        exact there rfl
      obtain ⟨rfl,same⟩ := kept₁ root
      rw [same] at kept₃
      exact ⟨rfl,kept₃ there⟩

end

/-- The slot in which `ext2_bmap` looks for block `bn`, for the blocks it can return. -/
def driverSlot (bn : Nat) : Place :=
  if h : bn < ndirBlocks then ⟨⟨bn,direct_lt h⟩,[]⟩
  else if bn - ndirBlocks < nindirect then ⟨12,[Fin.ofNat 512 (bn - ndirBlocks)]⟩
  else ⟨13,[Fin.ofNat 512 ((bn - ndirBlocks - nindirect) / nindirect)]⟩

theorem nindirect_eq : nindirect = 512 := rfl

def driverBlocks : Nat := ndirBlocks + nindirect + nindirect * nindirect

/-- The driver uses the pointers of an inode down to the entries of the first pointer block. -/
def driverDepth (i : Fin 15) : Nat := if i.val < ndirBlocks then 0 else 1

theorem one_le_of_deep {depth : Fin 15 → Nat} (deep : ∀ i, driverDepth i ≤ depth i) (i : Fin 15)
    (indirect : 12 ≤ i.val) : 1 ≤ depth i := by
  have least := deep i
  rw [driverDepth,ndirBlocks,if_neg (by omega)] at least
  exact least

section

variable {fs : Mount} {depth : Fin 15 → Nat} {ip : Inode} {o : Obs} {d : Dev}

private theorem reread (careful : Careful fs.recycle) {ip₁ : Inode} {o₁ : Obs} {d₁ : Dev} {i : Fin 15}
    {k : Fin 512} (deep : 1 ≤ depth i) (wf : Wf fs depth ip₁ o₁) (node : ip₁.addrs i ≠ 0)
    (present : ptr ip₁ o₁ ⟨i,[k]⟩ ≠ 0) (locked : obs d₁ = o₁.lock (ip₁.addrs i)) :
    ∃ d₂, bread fs.recycle (ptr ip₁ o₁ ⟨i,[k]⟩) d₁ = .ok ((),d₂) ∧
      obs d₂ = (o₁.lock (ip₁.addrs i)).lock (ptr ip₁ o₁ ⟨i,[k]⟩) ∧
      entryPointer fs ip₁ (ip₁.addrs i) k d₂ = .ok (ptr ip₁ o₁ ⟨i,[k]⟩,d₂) ∧
      ptr ip₁ o₁ ⟨i,[k]⟩ ≠ ip₁.addrs i := by
  have entry : ptr ip₁ o₁ ⟨i,[k]⟩ = word (o₁.view (ip₁.addrs i)) k := Slot.ptr_child_of_ne k node
  have apart : ptr ip₁ o₁ ⟨i,[k]⟩ ≠ ip₁.addrs i := by
    intro same
    have slots := wf.distinct ⟨i,[k]⟩ ⟨i,[]⟩ deep (Nat.zero_le _) present same
    simp at slots
  obtain ⟨d₂,ran₂,locked₂⟩ := bread_run (b := ptr ip₁ o₁ ⟨i,[k]⟩) (careful d₁)
    (by simp [locked,Obs.lock,update_of_ne apart,wf.idle])
  rw [locked] at locked₂
  have value : word ((obs d₂).view (ip₁.addrs i)) k = ptr ip₁ o₁ ⟨i,[k]⟩ := by rw [locked₂]; exact entry.symm
  have again := entryPointer_present fs ip₁ (b := ip₁.addrs i) (k := k.val) (d := d₂) k.isLt
    (by simp [locked₂,Obs.lock,update_of_ne apart.symm]) (by rw [value]; exact present)
  rw [value] at again
  exact ⟨d₂,ran₂,locked₂,again,apart⟩

theorem bmapSingle_meets (careful : Careful fs.recycle) (wf : Wf fs depth ip o) (deep : 1 ≤ depth 12) {bn : Nat}
    (bound : bn < 512) (state : obs d = o) :
    Meets (bmapSingle fs ip bn) d
      (fun r d' => Mapped fs depth ip o ⟨12,[⟨bn,bound⟩]⟩ r (obs d'))
      (fun _ => ptr ip o ⟨12,[⟨bn,bound⟩]⟩ = 0 ∧ room fs o ip.inum < 2) := by
  refine through_meets careful wf 12 ⟨bn,bound⟩ deep state (fun addr ip addr₁ => do brelse addr; return (addr₁,ip))
    (fun _ full => full) ?_
  intro ip₁ o₁ d₁ mapped _ locked
  obtain ⟨d₂,ran,released⟩ := brelse_run (d := d₁) (b := ip₁.addrs 12) (by simp [locked,Obs.lock])
  rw [locked,Obs.unlock_lock _ _ (mapped.grown.wf.idle _)] at released
  exact .step ran (.pure_intro (by rw [released]; exact mapped))

theorem bmapDouble_meets (careful : Careful fs.recycle) (wf : Wf fs depth ip o) (deep : 1 ≤ depth 13) {bn : Nat}
    (bound : bn / nindirect < 512) (state : obs d = o) :
    Meets (bmapDouble fs ip bn) d
      (fun r d' => Mapped fs depth ip o ⟨13,[⟨bn / nindirect,bound⟩]⟩ r (obs d'))
      (fun _ => ptr ip o ⟨13,[⟨bn / nindirect,bound⟩]⟩ = 0 ∧ room fs o ip.inum < 2) := by
  refine through_meets careful wf 13 ⟨bn / nindirect,bound⟩ deep state (fun addr ip addr₁ => do
      bread fs.recycle addr₁
      let addr₂ ← entryPointer fs ip addr (bn / nindirect)
      brelse addr₁
      brelse addr
      return (addr₂,ip)) (fun _ full => full) ?_
  intro ip₁ o₁ d₁ mapped node locked
  have wf₁ := mapped.grown.wf
  obtain ⟨d₂,ran₂,locked₂,again,apart⟩ := reread careful deep wf₁ node mapped.present locked
  obtain ⟨d₃,ran₃,released₃⟩ := brelse_run (d := d₂) (b := ptr ip₁ o₁ ⟨13,[⟨bn / nindirect,bound⟩]⟩)
    (by simp [locked₂,Obs.lock])
  rw [locked₂,Obs.unlock_lock _ _ (by simp [Obs.lock,update_of_ne apart,wf₁.idle])] at released₃
  obtain ⟨d₄,ran₄,released₄⟩ := brelse_run (d := d₃) (b := ip₁.addrs 13) (by simp [released₃,Obs.lock])
  rw [released₃,Obs.unlock_lock _ _ (wf₁.idle _)] at released₄
  exact .step ran₂ (.step again (.step ran₃ (.step ran₄ (.pure_intro (by rw [released₄]; exact mapped)))))

/-- The triple-indirect branch never returns: it indexes the pointer block out of its bounds, or it
locks the block of the entry twice. -/
theorem bmapTriple_never (careful : Careful fs.recycle) (wf : Wf fs depth ip o) (deep : 1 ≤ depth 14) (bn : Nat)
    (state : obs d = o) : Meets (bmapTriple fs ip bn) d (fun _ _ => False) (fun _ => True) := by
  by_cases small : bn / nindirect < 512
  · refine through_meets careful wf 14 ⟨bn / nindirect,small⟩ deep state (fun addr ip addr₁ => do
        bread fs.recycle addr₁
        let addr₂ ← entryPointer fs ip addr (bn / nindirect)
        bread fs.recycle addr₂
        let addr₃ ← entryPointer fs ip addr (bn / nindirect)
        brelse addr₂
        brelse addr₁
        brelse addr
        return (addr₃,ip)) (fun _ _ => trivial) ?_
    intro ip₁ o₁ d₁ mapped node locked
    obtain ⟨d₂,ran₂,locked₂,again,-⟩ := reread careful deep mapped.grown.wf node mapped.present locked
    refine .step ran₂ (.step again (.stop (bread_held fs.recycle ?_) trivial))
    simp [locked₂,Obs.lock]
  · refine ((rootPointer_meets careful wf 14 state).excuse (fun _ _ => trivial)).bind ?_
    rintro ⟨top,ip₁⟩ d₁ ⟨grown₁,-⟩
    obtain ⟨d₂,ran₂,-⟩ := bread_run (b := top) (careful d₁) (grown₁.wf.idle _)
    refine .step ran₂ (.stop (e := .outOfBounds) ?_ trivial)
    rw [entryPointer,nindirect_eq,if_neg (by rw [← nindirect_eq]; exact small)]
    rfl

theorem bmap_meets (careful : Careful fs.recycle) (deep : ∀ i, driverDepth i ≤ depth i) (wf : Wf fs depth ip o)
    {bn : Nat} (bound : bn < driverBlocks) (state : obs d = o) :
    Meets (bmap fs ip bn) d (fun r d' => Mapped fs depth ip o (driverSlot bn) r (obs d'))
      (fun _ => ptr ip o (driverSlot bn) = 0 ∧ room fs o ip.inum < 2) := by
  by_cases direct : bn < ndirBlocks
  · rw [bmap,driverSlot,dif_pos direct,dif_pos direct]
    refine (rootPointer_meets careful wf _ state).mono ?_ ?_
    · rintro ⟨addr,ip'⟩ d' ⟨grown,stored,present,kept,room⟩
      exact ⟨grown,stored,present,fun root => (kept root).1,kept,by omega⟩
    · rintro e ⟨empty,none⟩
      exact ⟨empty,by omega⟩
  by_cases single : bn - ndirBlocks < nindirect
  · have small : bn - ndirBlocks < 512 := by rw [← nindirect_eq]; exact single
    have slot : Fin.ofNat 512 (bn - ndirBlocks) = ⟨bn - ndirBlocks,small⟩ := Fin.ext (Nat.mod_eq_of_lt small)
    rw [bmap,driverSlot,dif_neg direct,dif_neg direct,if_pos single,if_pos single,slot]
    exact bmapSingle_meets careful wf (one_le_of_deep deep 12 (by decide)) small state
  · have double : bn - ndirBlocks - nindirect < nindirect * nindirect := by
      rw [driverBlocks] at bound
      omega
    have small : (bn - ndirBlocks - nindirect) / nindirect < 512 := by
      rw [nindirect_eq] at double ⊢
      omega
    have slot : Fin.ofNat 512 ((bn - ndirBlocks - nindirect) / nindirect) = ⟨_,small⟩ :=
      Fin.ext (Nat.mod_eq_of_lt small)
    rw [bmap,driverSlot,dif_neg direct,dif_neg direct,if_neg single,if_neg single,if_pos double,slot]
    exact bmapDouble_meets careful wf (one_le_of_deep deep 13 (by decide)) small state

theorem bmap_never (careful : Careful fs.recycle) (deep : ∀ i, driverDepth i ≤ depth i) (wf : Wf fs depth ip o)
    {bn : Nat} (far : driverBlocks ≤ bn) (state : obs d = o) :
    Meets (bmap fs ip bn) d (fun _ _ => False) (fun _ => True) := by
  rw [driverBlocks] at far
  have direct : ¬bn < ndirBlocks := by omega
  have single : ¬bn - ndirBlocks < nindirect := by omega
  have double : ¬bn - ndirBlocks - nindirect < nindirect * nindirect := by omega
  rcases Nat.lt_or_ge (bn - ndirBlocks - nindirect - nindirect * nindirect)
    (nindirect * nindirect * nindirect) with triple | beyond
  · rw [bmap,dif_neg direct,if_neg single,if_neg double,if_pos triple]
    exact bmapTriple_never careful wf (one_le_of_deep deep 14 (by decide)) _ state
  · rw [bmap,dif_neg direct,if_neg single,if_neg double,if_neg (Nat.not_lt.mpr beyond)]
    exact .of_error (fault_run _ _) trivial

end

section

variable {fs : Mount} {ip : Inode} {o : Obs}

theorem bmap_returns {depth : Fin 15 → Nat} (careful : Careful fs.recycle) (deep : ∀ i, driverDepth i ≤ depth i)
    {d : Dev} (wf : Wf fs depth ip (obs d)) (bn : Nat) :
    Meets (bmap fs ip bn) d (fun r d' => Mapped fs depth ip (obs d) (driverSlot bn) r (obs d'))
      (fun _ => ptr ip (obs d) (driverSlot bn) = 0 ∧ room fs (obs d) ip.inum < 2 ∨ driverBlocks ≤ bn) := by
  rcases Nat.lt_or_ge bn driverBlocks with near | far
  · exact (bmap_meets careful deep wf near rfl).excuse (fun _ => .inl)
  · exact (bmap_never careful deep wf far rfl).mono (fun _ _ never => never.elim) (fun _ _ => .inr far)

private theorem ptr_empty (empty : ∀ i, ip.addrs i = 0) (σ : Place) : ptr ip o σ = 0 := by
  obtain ⟨i,path⟩ := σ
  cases path with
  | nil => exact empty i
  | cons k path =>
    induction path generalizing k with
    | nil => rw [ptr,Slot.ptr_child,Slot.ptr_root,empty i,if_pos rfl]
    | cons k' path ih => rw [ptr,Slot.ptr_child,← ptr,ih k',if_pos rfl]

theorem root_ne_zero {σ : Place} (there : ptr ip o σ ≠ 0) : ip.addrs σ.root ≠ 0 := by
  obtain ⟨i,path⟩ := σ
  induction path with
  | nil => exact there
  | cons k path ih =>
    refine ih (fun empty => there ?_)
    exact if_pos empty

theorem Wf.of_empty {depth : Fin 15 → Nat} (empty : ∀ i, ip.addrs i = 0) (group : groupNo fs ip.inum < 64)
    (idle : ∀ b, o.held b = false) (bitmap_ne : bitmapOf fs o ip.inum ≠ 1)
    (table_ne : tableOf fs o ip.inum ≠ 1 ∧ tableOf fs o ip.inum ≠ bitmapOf fs o ip.inum)
    (fresh : ∀ z, Clear fs o ip.inum z → bitmapOf fs o ip.inum + UInt32.ofNat z ≠ 0 ∧
      ¬Reserved fs o ip.inum (bitmapOf fs o ip.inum + UInt32.ofNat z)) : Wf fs depth ip o where
  group := group
  idle := idle
  bitmap_ne := bitmap_ne
  table_ne := table_ne
  distinct σ _ _ _ present := absurd (ptr_empty empty σ) present
  plain σ _ present := absurd (ptr_empty empty σ) present
  fresh z clear := ⟨(fresh z clear).1,(fresh z clear).2,fun σ _ => by
    rw [ptr_empty empty σ]
    exact (fresh z clear).1.symm⟩

theorem card_le_room (inum : UInt32) (bits : Finset Nat) (clear : ∀ z ∈ bits, Clear fs o inum z) :
    bits.card ≤ room fs o inum := by
  refine Finset.card_le_card (fun z member => Finset.mem_filter.mpr ⟨?_,clear z member⟩)
  exact Finset.mem_range.mpr (clear z member).2.1

end

/-- One group with its inode table in block 3 and its bitmap in block 4; all behind it is free. -/
def bare : Blockno → Block := fun b =>
  if b = 1 then ((Bytes.zero bsize).setU32 0 4).setU32 8 3
  else if b = 4 then (Bytes.zero bsize).setBit 0
  else Bytes.zero bsize

def bareMount (recycle : Dev → Blockno → Bool) : Mount where
  exs := ⟨16384,0,1,16384,16,128,0⟩
  recycle := recycle
  devRead _ := none
  devWrite _ := none
  inodesPerGroup_pos := by decide
  inodeSize_ge := by decide
  inodeSize_le := by decide

/-- A cache that takes no buffer away. -/
abbrev stillMount : Mount := bareMount fun _ _ => false

def newInode (inum : UInt32) (type : FileType) : Inode := ⟨inum,type,0,1,0,fun _ => 0⟩

theorem bare_wf (recycle : Dev → Blockno → Bool) (depth : Fin 15 → Nat) (type : FileType) :
    Wf (bareMount recycle) depth (newInode 1 type) (obs (cold bare)) := by
  have bitmap : bitmapOf (bareMount recycle) (obs (cold bare)) 1 = 4 :=
    show bitmapOf stillMount (obs (cold bare)) 1 = 4 by decide +kernel
  have table : tableOf (bareMount recycle) (obs (cold bare)) 1 = 3 :=
    show tableOf stillMount (obs (cold bare)) 1 = 3 by decide +kernel
  have group : groupNo (bareMount recycle) 1 < 64 := show groupNo stillMount 1 < 64 by decide
  refine .of_empty (fun _ => rfl) group (fun _ => rfl) (by rw [newInode,bitmap]; decide)
    (by rw [newInode,bitmap,table]; decide) ?_
  intro z ⟨_,inside,clear⟩
  have positive : z ≠ 0 := by
    rintro rfl
    rw [newInode,bitmap] at clear
    exact absurd clear (by decide +kernel)
  simp only [bsize] at inside
  have value : ((4 : UInt32) + UInt32.ofNat z).toNat = 4 + z := by
    rw [UInt32.toNat_add,UInt32.toNat_ofNat',Nat.mod_eq_of_lt (show z < 2 ^ 32 by omega)]
    exact Nat.mod_eq_of_lt (show 4 + z < 2 ^ 32 by omega)
  have other (b : UInt32) (small : b.toNat ≤ 4) : (4 : UInt32) + UInt32.ofNat z ≠ b := by
    intro same
    rw [← same,value] at small
    omega
  simp only [newInode,Reserved,bitmap,table,not_or]
  exact ⟨other 0 (by decide),other 1 (by decide),other 4 (by decide),other 3 (by decide)⟩

theorem never_careful : Careful (fun _ _ => false) := fun _ _ _ _ _ _ recycled => absurd recycled Bool.false_ne_true

end Xv6Ext2.Ext2
