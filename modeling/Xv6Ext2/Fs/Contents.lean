import Mathlib
import Xv6Ext2.Fs.InodeTable

/-! What reading and writing does to the contents of files. -/
namespace Xv6Ext2.Fs
open Lib Bio Log Function

def content (F : Files) (v : Blockno → Block) (i : UInt32) (x : Nat) : UInt8 :=
  if ptr F v (slot i (x / bsize)) = 0 then 0 else (v (ptr F v (slot i (x / bsize)))).byte (x % bsize)

section

variable {fs : Volume} {F F' : Files} {v v' : Blockno → Block} {i : UInt32}

theorem Grown.content_eq (grown : Grown fs i F F' v v') (j : UInt32) (x : Nat) : content F' v' j x = content F v j x := by
  have leaf := slot_leaf j (x / bsize)
  rw [content,content]
  by_cases empty' : ptr F' v' (slot j (x / bsize)) = 0
  · have empty : ptr F v (slot j (x / bsize)) = 0 := by
      by_contra present
      exact present ((grown.keeps _ leaf.within present).symm.trans empty')
    rw [if_pos empty',if_pos empty]
  · rw [if_neg empty',grown.data _ leaf empty']
    split_ifs with empty
    · exact Bytes.byte_zero _ _
    · rfl

theorem Evolved.content_other (evolved : Evolved fs i F F' v v') {j : UInt32} (other : j ≠ i) (x : Nat) :
    content F' v' j x = content F v j x := by
  have leaf := slot_leaf j (x / bsize)
  have root : (slot j (x / bsize)).root.1 ≠ i := by rw [slot_root]; exact other
  rw [content,content,evolved.others _ leaf.within root]
  split_ifs with empty
  · rfl
  · rw [evolved.foreign _ leaf root empty]

theorem ptr_write_leaf (owned : Owned fs F v) {σ : Place} (leaf : σ.Leaf depth) (data : Block) {ρ : Place}
    (within : ρ.Within depth) : ptr F (update v (ptr F v σ) data) ρ = ptr F v ρ := by
  refine Slot.ptr_congr ?_ ρ within
  intro τ inner there k
  rw [entry,entry]
  exact congrArg (word · k) (update_of_ne (owned.leaf_apart leaf inner there) _ _)

theorem used_write (owned : Owned fs F v) {σ : Place} (leaf : σ.Leaf depth) (present : ptr F v σ ≠ 0) (data : Block)
    (z : Nat) : used fs (update v (ptr F v σ) data) z = used fs v z := by
  rw [used,used,update_of_ne (owned.ne_bitmap leaf.within present).symm]

theorem evolved_write_leaf (owned : Owned fs F v) {bn : Nat} (present : ptr F v (slot i bn) ≠ 0) (data : Block) :
    Evolved fs i F F v (update v (ptr F v (slot i bn)) data) := by
  have leaf := slot_leaf i bn
  have same (ρ : Place) (within : ρ.Within depth) := ptr_write_leaf owned leaf data within
  have bits := used_write owned leaf present data
  refine ⟨⟨?_,?_,?_,?_⟩,(update_eq_self i F).symm,fun ρ within _ => same ρ within,fun ρ within _ => same ρ within,?_,?_,?_⟩
  · intro ρ τ within within' there equal
    rw [same ρ within] at there equal
    rw [same τ within'] at equal
    exact owned.distinct ρ τ within within' there equal
  · intro ρ within there
    rw [same ρ within] at there ⊢
    exact owned.data ρ within there
  · intro ρ within there
    rw [same ρ within] at there ⊢
    rw [bits]
    exact owned.marked ρ within there
  · intro z low
    rw [bits]
    exact owned.reserved z low
  · intro ρ leaf' other there
    refine update_of_ne (fun equal => other ?_) _ _
    rw [owned.distinct ρ (slot i bn) leaf'.within leaf.within there equal,slot_root]
  · intro b low
    have behind := (owned.data _ leaf.within present).1
    refine update_of_ne ?_ _ _
    rintro rfl
    omega
  · intro z
    rw [bits]
    refine ⟨Or.inl,fun either => either.elim id ?_⟩
    rintro ⟨ρ,within,empty,there,_⟩
    rw [same ρ within] at there
    exact absurd empty there

theorem content_write_leaf (owned : Owned fs F v) {bn : Nat} (near : bn < maxfile) (present : ptr F v (slot i bn) ≠ 0)
    (data : Block) {x : Nat} (inside : x / bsize < maxfile) :
    content F (update v (ptr F v (slot i bn)) data) i x =
      if x / bsize = bn then data.byte (x % bsize) else content F v i x := by
  have leaf := slot_leaf i bn
  have leaf' := slot_leaf i (x / bsize)
  rw [content,content,ptr_write_leaf owned leaf data leaf'.within]
  by_cases here : x / bsize = bn
  · rw [here,if_neg present,if_pos rfl,update_self]
  · rw [if_neg here]
    split_ifs with empty
    · rfl
    · have apart : ptr F v (slot i (x / bsize)) ≠ ptr F v (slot i bn) := by
        intro same
        exact here (slot_inj inside near (owned.distinct _ _ leaf'.within leaf.within empty same)).2
      rw [update_of_ne apart]

private theorem round_block {off m j : Nat} (small : m ≤ bsize - off % bsize) (bound : j < m) :
    (off + j) / bsize = off / bsize ∧ (off + j) % bsize = off % bsize + j := by
  simp only [bsize] at *
  omega

private theorem content_round {addr : Blockno} {off m : Nat} (short : m ≤ bsize - off % bsize)
    (stored : addr = ptr F v (slot i (off / bsize))) (present : addr ≠ 0) {j : Nat} (bound : j < m) :
    content F v i (off + j) = (v addr).byte (off % bsize + j) := by
  obtain ⟨block,byte⟩ := round_block short bound
  rw [content,block,byte,← stored,if_neg present]

variable {s : Sys} {budget : Finset Blockno} {fail : Fault → Prop}

/-- Bytes `off`, ..., `off + len - 1` of file `i` are in blocks that it has. -/
def Present (F : Files) (v : Blockno → Block) (i : UInt32) (off len : Nat) : Prop :=
  ∀ x, off ≤ x → x < off + len → x / bsize < maxfile ∧ ptr F v (slot i (x / bsize)) ≠ 0

theorem readLoop_meets (fuel : Nat) {dst : Nat → UInt8} {tot off n : Nat} (track : Track fs s v ∅ ∅ budget)
    (present : Present F v i off (n - tot)) (enough : n - tot ≤ fuel) :
    Meets (readLoop fs fuel (F i) dst tot off n) s
      (fun r s' => r = (poke dst tot (n - tot) (fun j => content F v i (off + j)),F i) ∧ Track fs s' v ∅ ∅ budget) fail := by
  induction fuel generalizing s dst tot off with
  | zero =>
    have done : n - tot = 0 := by omega
    rw [readLoop,if_neg (by omega),done,poke_nothing]
    exact .pure_intro ⟨rfl,track⟩
  | succ fuel ih =>
    rw [readLoop]
    by_cases more : tot < n
    · rw [if_pos more]
      obtain ⟨near,there⟩ := present off (Nat.le_refl _) (by omega)
      refine (bmap_present track near there).bind ?_
      rintro _ s₁ ⟨rfl,track₁⟩
      refine bread_step track₁ (Finset.notMem_empty _) track₁.few fun s₂ track₂ => ?_
      refine bdata_step track₂ (Finset.mem_insert_self _ _) ?_
      refine brelse_step track₂ (Finset.notMem_empty _) (Finset.notMem_empty _) fun s₃ track₃ => ?_
      generalize count : min (n - tot) (bsize - off % bsize) = m
      have low := Nat.mod_lt off (by decide : 0 < bsize)
      have short : m ≤ bsize - off % bsize := by omega
      have rest : Present F v i (off + m) (n - (tot + m)) := fun x lower upper => present x (by omega) (by omega)
      refine (ih track₃ rest (by omega)).mono ?_ (fun _ => id)
      rintro _ s₄ ⟨rfl,track₄⟩
      refine ⟨?_,track₄⟩
      have total : n - tot = m + (n - (tot + m)) := by omega
      rw [total,poke_poke _ _ _ _ _ _ (fun j => content F v i (off + j))]
      · intro j bound
        exact (content_round short rfl there bound).symm
      · intro j _
        rw [Nat.add_assoc]
    · have done : n - tot = 0 := by omega
      rw [if_neg more,done,poke_nothing]
      exact .pure_intro ⟨rfl,track⟩

theorem space_congr (same : ∀ z, used fs v' z = used fs v z) : space fs v' = space fs v := by
  rw [space,space]
  simp only [same]

theorem content_patched (owned : Owned fs F v) {off m : Nat} (short : m ≤ bsize - off % bsize)
    (near : off / bsize < maxfile) (present : ptr F v (slot i (off / bsize)) ≠ 0) (f : Nat → UInt8) {x : Nat}
    (inside : x / bsize < maxfile) :
    content F (update v (ptr F v (slot i (off / bsize)))
        ((v (ptr F v (slot i (off / bsize)))).patch (off % bsize) m f)) i x =
      if off ≤ x ∧ x < off + m then f (x - off) else content F v i x := by
  have positive : 0 < bsize := by decide
  have low := Nat.mod_lt x positive
  have low' := Nat.mod_lt off positive
  rw [content_write_leaf owned near present _ inside]
  by_cases here : x / bsize = off / bsize
  · have split := Nat.div_add_mod x bsize
    have split' := Nat.div_add_mod off bsize
    rw [here] at split
    rw [if_pos here,Bytes.byte_patch _ _ _ _ _ low]
    by_cases range : off ≤ x ∧ x < off + m
    · rw [if_pos (by omega),if_pos range]
      congr 1
      omega
    · rw [if_neg (by omega),if_neg range,content,here,if_neg present]
  · rw [if_neg here,if_neg]
    rintro ⟨lower,upper⟩
    have block := (round_block short (j := x - off) (by omega)).1
    rw [Nat.add_sub_cancel' lower] at block
    exact here block

/-- `len` bytes of `src` went to byte `off` of file `i`, into blocks that it had or got. -/
structure Wrote (fs : Volume) (i : UInt32) (off len : Nat) (src : Nat → UInt8) (F F' : Files) (v v' : Blockno → Block) : Prop where
  evolved : Evolved fs i F F' v v'
  content : ∀ x, x / bsize < maxfile →
    content F' v' i x = if off ≤ x ∧ x < off + len then src (x - off) else content F v i x
  filled : Present F' v' i off len
  only : ∀ σ : Place, σ.Leaf depth → (∀ x, off ≤ x → x < off + len → σ ≠ slot i (x / bsize)) → ptr F' v' σ = ptr F v σ
  same : Present F v i off len → F' = F ∧ ∀ z, used fs v' z = used fs v z

theorem Wrote.nothing (owned : Owned fs F v) (i : UInt32) (off : Nat) (src : Nat → UInt8) : Wrote fs i off 0 src F F v v where
  evolved := .refl owned i
  content x _ := by rw [if_neg (by omega)]
  filled x lower upper := absurd upper (by omega)
  only _ _ _ := rfl
  same _ := ⟨rfl,fun _ => rfl⟩

theorem Wrote.trans {F₂ : Files} {v₁ v₂ : Blockno → Block} {off m n : Nat} {src : Nat → UInt8} (first : Wrote fs i off m src F F' v v₁)
    (rest : Wrote fs i (off + m) n (fun j => src (m + j)) F' F₂ v₁ v₂) : Wrote fs i off (m + n) src F F₂ v v₂ := by
  refine ⟨first.evolved.trans rest.evolved,fun x inside => ?_,fun x lower upper => ?_,fun σ leaf outside => ?_,fun present => ?_⟩
  · rw [rest.content x inside,first.content x inside]
    by_cases late : off + m ≤ x ∧ x < off + m + n
    · rw [if_pos late,if_pos (by omega)]
      congr 1
      omega
    · rw [if_neg late]
      by_cases early : off ≤ x ∧ x < off + m
      · rw [if_pos early,if_pos (by omega)]
      · rw [if_neg early,if_neg (by omega)]
  · by_cases late : off + m ≤ x
    · exact rest.filled x late (by omega)
    · obtain ⟨inside,there⟩ := first.filled x lower (by omega)
      refine ⟨inside,?_⟩
      rw [rest.evolved.keeps _ (slot_leaf i _).within there]
      exact there
  · rw [rest.only σ leaf (fun x lower upper => outside x (by omega) (by omega))]
    exact first.only σ leaf (fun x lower upper => outside x lower (by omega))
  · obtain ⟨rfl,bits⟩ := first.same (fun x lower upper => present x lower (by omega))
    have later : Present F' v₁ i (off + m) n := by
      intro x lower upper
      obtain ⟨inside,there⟩ := present x (by omega) (by omega)
      refine ⟨inside,?_⟩
      rw [first.evolved.keeps _ (slot_leaf i _).within there]
      exact there
    obtain ⟨rfl,bits'⟩ := rest.same later
    exact ⟨rfl,fun z => (bits' z).trans (bits z)⟩

theorem Grown.wrote (grown : Grown fs i F F' v v') {off m : Nat} (near : off / bsize < maxfile) (positive : 0 < m)
    (short : m ≤ bsize - off % bsize) (present : ptr F' v' (slot i (off / bsize)) ≠ 0)
    (only : ∀ σ : Place, σ.Leaf depth → σ ≠ slot i (off / bsize) → ptr F' v' σ = ptr F v σ)
    (same : ptr F v (slot i (off / bsize)) ≠ 0 → F' = F ∧ v' = v) (f : Nat → UInt8) :
    Wrote fs i off m f F F' v (update v' (ptr F' v' (slot i (off / bsize)))
      ((v' (ptr F' v' (slot i (off / bsize)))).patch (off % bsize) m f)) := by
  have leaf := slot_leaf i (off / bsize)
  have owned := grown.owned
  have kept {σ : Place} (within : σ.Within depth) := ptr_write_leaf owned leaf
    ((v' (ptr F' v' (slot i (off / bsize)))).patch (off % bsize) m f) within
  refine ⟨grown.toEvolved.trans (evolved_write_leaf owned present _),fun x inside => ?_,fun x lower upper => ?_,
    fun σ leaf' outside => ?_,fun whole => ?_⟩
  · rw [content_patched owned short near present f inside,grown.content_eq]
  · have block := (round_block short (j := x - off) (by omega)).1
    rw [Nat.add_sub_cancel' lower] at block
    rw [block,kept leaf.within]
    exact ⟨near,present⟩
  · rw [kept leaf'.within]
    exact only σ leaf' (outside off (Nat.le_refl _) (by omega))
  · obtain ⟨rfl,rfl⟩ := same (whole off (Nat.le_refl _) (by omega)).2
    exact ⟨rfl,used_write owned leaf present _⟩

/-- One round of the loop of `writei`. A block that was there costs nothing if it is listed. -/
structure Round (fs : Volume) (i : UInt32) (off m last : Nat) (f : Nat → UInt8) (F F' : Files) (v v' : Blockno → Block)
    (budget budget' : Finset Blockno) (s' : Sys) : Prop where
  wrote : Wrote fs i off m f F F' v v'
  track : Track fs s' v' ∅ ∅ budget'
  wider : budget ⊆ budget'
  node : (ndirect ≤ last → (F i).addrs 12 ≠ 0 → (F i).addrs 12 ∈ budget) →
    ndirect ≤ last → (F' i).addrs 12 ≠ 0 → (F' i).addrs 12 ∈ budget'
  cost : (ptr F v (slot i (off / bsize)) ≠ 0 → ptr F v (slot i (off / bsize)) ∈ budget) →
    budget'.card + gap F' i last ≤ budget.card + (if ptr F v (slot i (off / bsize)) = 0 then 1 else 0) + gap F i last
  space : space fs v + gap F' i last ≤
    space fs v' + (if ptr F v (slot i (off / bsize)) = 0 then 1 else 0) + gap F i last

private theorem store_meets {α : Type} {post : α → Sys → Prop} {addr : Blockno} {o m : Nat} {f : Nat → UInt8} {k : P α}
    (track : Track fs s v ∅ ∅ budget) (room : budget.card + 2 ≤ limit fs) (home : fs.sb.inodestart.toNat ≤ addr.toNat)
    (rest : ∀ s', Track fs s' (update v addr ((v addr).patch o m f)) ∅ ∅ (insert addr budget) → Meets k s' post fail) :
    Meets (do
      bread fs addr
      bset addr ((← bdata addr).patch o m f)
      logWrite addr
      brelse addr
      k) s post fail := by
  have none := Finset.notMem_empty addr
  have mine := Finset.mem_insert_self addr ∅
  refine bread_step track none track.few fun s₁ track₁ => ?_
  refine bdata_step track₁ mine ?_
  refine bset_step track₁ mine fun s₂ track₂ => ?_
  refine logWrite_step track₂ room home fun s₃ track₃ => ?_
  exact brelse_step track₃ none none fun s₄ track₄ => rest s₄ track₄

theorem round_meets {α : Type} {post : α → Sys → Prop} {off m last : Nat} {f : Nat → UInt8} {k : Inode → P α}
    (track : Track fs s v ∅ ∅ budget) (owned : Owned fs F v) (near : off / bsize < maxfile) (positive : 0 < m)
    (short : m ≤ bsize - off % bsize) (upto : off / bsize ≤ last) (room : budget.card + 2 ≤ limit fs)
    (ready : ptr F v (slot i (off / bsize)) = 0 → Ready fs i last F budget ∧ OutOfBlocks fs v (1 + gap F i last) fail)
    (rest : ∀ F' v' budget' s', Round fs i off m last f F F' v v' budget budget' s' → Meets (k (F' i)) s' post fail) :
    Meets (do
      let (addr,ip) ← bmap fs (F i) (off / bsize)
      bread fs addr
      bset addr ((← bdata addr).patch (off % bsize) m f)
      logWrite addr
      brelse addr
      k ip) s post fail := by
  have leaf := slot_leaf i (off / bsize)
  by_cases empty : ptr F v (slot i (off / bsize)) = 0
  · obtain ⟨ready,full⟩ := ready empty
    have most := ready.cost
    refine (bmap_hole track owned near empty upto ready full).bind ?_
    rintro ⟨addr,ip⟩ s₁ ⟨F₁,v₁,budget₁,mapped⟩
    obtain ⟨grown,track₁,rfl,rfl,present,only,wider,listed,node,cost,space⟩ := mapped
    refine store_meets track₁ (by omega) (grown.owned.data_home leaf.within present) fun s₂ track₂ => ?_
    rw [Finset.insert_eq_of_mem listed] at track₂
    refine rest F₁ _ budget₁ s₂ ⟨grown.wrote near positive short present only (fun there => absurd empty there) f,track₂,wider,
      fun _ => node,fun _ => ?_,?_⟩
    · rw [if_pos empty]
      exact cost
    · rw [if_pos empty,space_congr (used_write grown.owned leaf present _)]
      exact space
  · refine (bmap_present track near empty).bind ?_
    rintro _ s₁ ⟨rfl,track₁⟩
    refine store_meets track₁ room (owned.data_home leaf.within empty) fun s₂ track₂ => ?_
    have wider := Finset.subset_insert (ptr F v (slot i (off / bsize))) budget
    refine rest F _ _ s₂ ⟨(Grown.refl owned i).wrote near positive short empty (fun _ _ _ => rfl) (fun _ => ⟨rfl,rfl⟩) f,track₂,wider,
      fun old deep there => wider (old deep there),fun listed => ?_,?_⟩
    · rw [if_neg empty,Finset.insert_eq_of_mem (listed empty)]
      exact Nat.le_refl _
    · rw [if_neg empty,space_congr (used_write owned leaf empty _)]
      exact Nat.le_refl _

def lastBlock (off len : Nat) : Nat := (off + len - 1) / bsize

def holes (F : Files) (v : Blockno → Block) (i : UInt32) (first last : Nat) : Nat :=
  ((Finset.Icc first last).filter (fun bn => ptr F v (slot i bn) = 0)).card

def need (F : Files) (v : Blockno → Block) (i : UInt32) (off len : Nat) : Nat :=
  holes F v i (off / bsize) (lastBlock off len) + gap F i (lastBlock off len)

theorem need_present {off len : Nat} (present : Present F v i off len) (some_bytes : 0 < len) : need F v i off len = 0 := by
  have block (bn : Nat) (lower : off / bsize ≤ bn) (upper : bn ≤ lastBlock off len) : ptr F v (slot i bn) ≠ 0 := by
    have size : bsize = 2048 := rfl
    rw [lastBlock,size] at upper
    rw [size] at lower
    have here := (present (max off (bn * 2048)) (Nat.le_max_left _ _) (by omega)).2
    rwa [size,show max off (bn * 2048) / 2048 = bn by omega] at here
  have none : holes F v i (off / bsize) (lastBlock off len) = 0 := by
    refine Finset.card_eq_zero.mpr (Finset.filter_eq_empty_iff.mpr fun bn member => ?_)
    obtain ⟨lower,upper⟩ := Finset.mem_Icc.mp member
    exact block bn lower upper
  have node : gap F i (lastBlock off len) = 0 := by
    refine if_neg ?_
    rintro ⟨deep,missing⟩
    refine block (lastBlock off len) ?_ (Nat.le_refl _) (ptr_slot_missing (Nat.not_lt.mpr deep) missing)
    exact Nat.div_le_div_right (by omega)
  rw [need,none,node]

/-- The blocks that a write changes in place. The last one counts only if `iupdate` follows. -/
def rewritten (F : Files) (v : Blockno → Block) (i : UInt32) (off len : Nat) : Finset Blockno :=
  ((Finset.Icc (off / bsize) (lastBlock off len)).filter (fun bn => ptr F v (slot i bn) ≠ 0 ∧
    (bn = lastBlock off len → (F i).size.toNat < off + len))).image (fun bn => ptr F v (slot i bn))

/-- What a write logs before its last `log_write`, but for the new blocks. -/
def footprint (fs : Volume) (F : Files) (v : Blockno → Block) (i : UInt32) (off len : Nat) : Finset Blockno :=
  rewritten F v i off len ∪ if need F v i off len = 0 then ∅ else insert fs.sb.bmapstart
    (if ndirect ≤ lastBlock off len ∧ (F i).addrs 12 ≠ 0 then {(F i).addrs 12} else ∅)

/-- `log_write` tests for room also when the block is there. -/
structure Enough (fs : Volume) (i : UInt32) (off len : Nat) (F : Files) (v : Blockno → Block) (budget : Finset Blockno) : Prop where
  covered : footprint fs F v i off len ⊆ budget
  cost : budget.card + need F v i off len + 2 ≤ limit fs

namespace Enough

variable {off len : Nat}

theorem bitmap (enough : Enough fs i off len F v budget) (some_new : need F v i off len ≠ 0) : fs.sb.bmapstart ∈ budget :=
  enough.covered (by simp [footprint,some_new])

theorem node (enough : Enough fs i off len F v budget) (some_new : need F v i off len ≠ 0) (deep : ndirect ≤ lastBlock off len)
    (there : (F i).addrs 12 ≠ 0) : (F i).addrs 12 ∈ budget :=
  enough.covered (by simp [footprint,some_new,deep,there])

theorem listed (enough : Enough fs i off len F v budget) {bn : Nat} (lower : off / bsize ≤ bn) (upper : bn ≤ lastBlock off len)
    (last : bn = lastBlock off len → (F i).size.toNat < off + len) (there : ptr F v (slot i bn) ≠ 0) : ptr F v (slot i bn) ∈ budget := by
  refine enough.covered (Finset.mem_union_left _ (Finset.mem_image_of_mem _ ?_))
  exact Finset.mem_filter.mpr ⟨Finset.mem_Icc.mpr ⟨lower,upper⟩,there,last⟩

end Enough

private theorem holes_round {F F' : Files} {v v' : Blockno → Block} {first last : Nat} (order : first ≤ last)
    (near : last < maxfile)
    (only : ∀ σ : Place, σ.Leaf depth → σ ≠ slot i first → ptr F' v' σ = ptr F v σ) :
    holes F' v' i (first + 1) last + (if ptr F v (slot i first) = 0 then 1 else 0) = holes F v i first last := by
  have tail : holes F' v' i (first + 1) last = holes F v i (first + 1) last := by
    refine congrArg Finset.card (Finset.filter_congr fun bn member => ?_)
    obtain ⟨lower,upper⟩ := Finset.mem_Icc.mp member
    have other : slot i bn ≠ slot i first := fun same => by
      have := (slot_inj (by omega) (by omega) same).2
      omega
    rw [only _ (slot_leaf i bn) other]
  have head : Finset.Icc first last = insert first (Finset.Icc (first + 1) last) := by
    apply Finset.ext
    intro bn
    simp only [Finset.mem_insert,Finset.mem_Icc]
    omega
  rw [tail,holes,holes,head,Finset.filter_insert]
  split_ifs with empty
  · rw [Finset.card_insert_of_notMem (by simp)]
  · rfl

/-- The rest of a write after one round of it. -/
private theorem Round.enough {budget' : Finset Blockno} {s' : Sys} {off m len : Nat} {f : Nat → UInt8}
    (round : Round fs i off m (lastBlock off len) f F F' v v' budget budget' s') (enough : Enough fs i off len F v budget)
    (near : lastBlock off len < maxfile) (count : min len (bsize - off % bsize) = m) (left : 0 < len - m) :
    Enough fs i (off + m) (len - m) F' v' budget' ∧
      Fs.space fs v + need F' v' i (off + m) (len - m) ≤ Fs.space fs v' + need F v i off len := by
  have low := Nat.mod_lt off (by decide : 0 < bsize)
  have last : lastBlock (off + m) (len - m) = lastBlock off len := by
    rw [lastBlock,lastBlock]
    congr 1
    omega
  have next : (off + m) / bsize = off / bsize + 1 := by
    simp only [bsize] at *
    omega
  have order : off / bsize + 1 ≤ lastBlock off len := by
    rw [← next,← last]
    exact Nat.div_le_div_right (by omega)
  have size : (F' i).size = (F i).size := by rw [round.wrote.evolved.inode_self]
  have total : off + m + (len - m) = off + len := by omega
  have only : ∀ σ : Place, σ.Leaf depth → σ ≠ slot i (off / bsize) → ptr F' v' σ = ptr F v σ := by
    intro σ leaf other
    refine round.wrote.only σ leaf fun x lower upper => ?_
    have block := (round_block (show m ≤ bsize - off % bsize by omega) (j := x - off) (by omega)).1
    rw [Nat.add_sub_cancel' lower] at block
    rw [block]
    exact other
  have fewer := holes_round (by omega) near only
  have cost := enough.cost
  have spent := round.cost (enough.listed (Nat.le_refl _) (by omega) (by omega))
  have space := round.space
  have gaps := round.wrote.evolved.gap_le (lastBlock off len)
  rw [need] at cost
  refine ⟨⟨fun b member => ?_,?_⟩,?_⟩
  · rw [footprint,need,last,next,Finset.mem_union] at member
    rcases member with old | new
    · rw [rewritten,last,next,size,total] at old
      obtain ⟨bn,inside,rfl⟩ := Finset.mem_image.mp old
      obtain ⟨range,there,grows⟩ := Finset.mem_filter.mp inside
      obtain ⟨lower,upper⟩ := Finset.mem_Icc.mp range
      have apart : slot i bn ≠ slot i (off / bsize) := fun equal => by
        have := (slot_inj (by omega) (by omega) equal).2
        omega
      rw [only _ (slot_leaf i bn) apart] at there ⊢
      exact round.wider (enough.listed (by omega) upper grows there)
    · split_ifs at new with none deep
      · exact absurd new (Finset.notMem_empty b)
      · have some_new : need F v i off len ≠ 0 := by rw [need]; omega
        rcases Finset.mem_insert.mp new with rfl | node
        · exact round.wider (enough.bitmap some_new)
        · rw [Finset.mem_singleton.mp node]
          exact round.node (enough.node some_new) deep.1 deep.2
      · have some_new : need F v i off len ≠ 0 := by rw [need]; omega
        rw [Finset.mem_insert,or_iff_left (Finset.notMem_empty b)] at new
        rw [new]
        exact round.wider (enough.bitmap some_new)
  · rw [need,last,next]
    omega
  · rw [need,need,last,next]
    omega

theorem writeLoop_meets (fuel : Nat) {src : Nat → UInt8} {tot off n : Nat} (track : Track fs s v ∅ ∅ budget)
    (owned : Owned fs F v) (near : off + (n - tot) ≤ maxfile * bsize)
    (enough : 0 < n - tot → Enough fs i off (n - tot) F v budget)
    (full : 0 < n - tot → OutOfBlocks fs v (need F v i off (n - tot)) fail)
    (room : (F i).size.toNat < off + (n - tot) → budget.card + 2 ≤ limit fs) (bound : n - tot ≤ fuel) :
    Meets (writeLoop fs fuel (F i) src tot off n) s
      (fun ip s' => ∃ F' v' budget', ip = F' i ∧ Wrote fs i off (n - tot) (fun j => src (tot + j)) F F' v v' ∧
        Track fs s' v' ∅ ∅ budget' ∧
        ((F i).size.toNat < off + (n - tot) → budget'.card + 2 ≤ limit fs)) fail := by
  induction fuel generalizing s F v budget tot off with
  | zero =>
    have done : n - tot = 0 := by omega
    rw [done] at room ⊢
    rw [writeLoop,if_neg (by omega)]
    exact .pure_intro ⟨F,v,budget,rfl,.nothing owned i off _,track,room⟩
  | succ fuel ih =>
    rw [writeLoop]
    by_cases more : tot < n
    · rw [if_pos more]
      generalize count : min (n - tot) (bsize - off % bsize) = m
      have low := Nat.mod_lt off (by decide : 0 < bsize)
      have positive : 0 < m := by omega
      have limit : lastBlock off (n - tot) < maxfile := by
        simp only [lastBlock,bsize] at *
        omega
      have order : off / bsize ≤ lastBlock off (n - tot) := Nat.div_le_div_right (by omega)
      have enough := enough (by omega)
      have cost := enough.cost
      have full := full (by omega)
      have whole := @holes_round i F F v v _ _ order limit (fun _ _ _ => rfl)
      refine round_meets (m := m) (f := fun j => src (tot + j))
        (k := fun ip => writeLoop fs fuel ip src (tot + m) (off + m) n) track owned (by omega) positive (by omega) order (by omega) ?_
        fun F₁ v₁ budget₁ s₁ round => ?_
      · intro empty
        rw [if_pos empty] at whole
        rw [need] at cost
        have some_new : need F v i off (n - tot) ≠ 0 := by rw [need]; omega
        refine ⟨⟨enough.bitmap some_new,enough.node some_new,by omega⟩,fun none => full ?_⟩
        rw [need]
        omega
      · have shape : n - (tot + m) = n - tot - m := by omega
        have later (left : 0 < n - (tot + m)) := round.enough enough limit count (by omega)
        have total : m + (n - (tot + m)) = n - tot := by omega
        have size : (F₁ i).size = (F i).size := by rw [round.wrote.evolved.inode_self]
        rw [← shape] at later
        refine (ih round.track round.wrote.evolved.owned (by omega) (fun left => (later left).1) (fun left none => full ?_)
          (fun grows => ?_) (by omega)).mono ?_ (fun _ => id)
        · have := (later left).2
          omega
        · rw [size,Nat.add_assoc,total] at grows
          have spent := round.cost (enough.listed (Nat.le_refl _) order fun _ => grows)
          rw [need] at cost
          omega
        · rintro ip s₂ ⟨F₂,v₂,budget₂,rfl,wrote,track₂,room₂⟩
          rw [size,Nat.add_assoc,total] at room₂
          refine ⟨F₂,v₂,budget₂,rfl,?_,track₂,room₂⟩
          rw [← total]
          refine round.wrote.trans ?_
          simp only [← Nat.add_assoc]
          exact wrote
    · have done : n - tot = 0 := by omega
      rw [done] at room ⊢
      rw [if_neg more]
      exact .pure_intro ⟨F,v,budget,rfl,.nothing owned i off _,track,room⟩

end

end Xv6Ext2.Fs
