import Xv6Ext2.Mkfs.Program

/-! One `iappend`. The image is looked at as if the bitmap were already written, with the bits of all blocks below
`freeblock`; then appending is what the kernel does when it writes at the end of a file. -/
namespace Xv6Ext2.Mkfs
open Lib Bio Log Fs Function

/-- The image with the bitmap that `balloc` would write. -/
def view (h : Host) : Blockno → Block := update h.image sb.bmapstart (bitmap h.freeblock.toNat)

theorem layout : standard.sb = sb := by decide

theorem bit_bitmap {n : Nat} (small : n ≤ bpb) (z : Nat) : bit (bitmap n).byte z = decide (z < n) := by
  induction n with
  | zero => simp [bitmap,bit]
  | succ n ih =>
    have last : bitmap (n + 1) = (bitmap n).setBit n := by
      rw [bitmap,List.range_succ,List.foldl_append]
      rfl
    rw [last,bit_setBit _ _ _ (by simp only [bpb] at small; omega),ih (by omega),← Bool.decide_or,decide_eq_decide]
    omega

/-- The blocks from `freeblock` on are zero. -/
structure Counted (h : Host) : Prop where
  length : h.length = fssize
  low : nmeta ≤ h.freeblock.toNat
  high : h.freeblock.toNat ≤ fssize
  blank : ∀ b, h.freeblock.toNat ≤ b.toNat → h.image b = Bytes.zero bsize

structure Growing (h : Host) (F : Files) : Prop extends Counted h where
  owned : Owned standard F (view h)

section

variable {h h' : Host} {F F' : Files} {i : UInt32} {b : Blockno} {α : Type} {post : α → Host → Prop} {fail : Exit → Prop}

theorem view_bitmap (h : Host) : view h standard.sb.bmapstart = bitmap h.freeblock.toNat := by
  rw [layout]
  exact update_self _ _ _

theorem view_other (h : Host) (other : b ≠ standard.sb.bmapstart) : view h b = h.image b := by
  rw [layout] at other
  exact update_of_ne other _ _

theorem used_view (small : h.freeblock.toNat ≤ fssize) (z : Nat) : used standard (view h) z = decide (z < h.freeblock.toNat) := by
  rw [used,view_bitmap]
  exact bit_bitmap (small.trans (by decide)) z

theorem free_view (small : h.freeblock.toNat ≤ fssize) : Free standard (view h) b ↔ h.freeblock.toNat ≤ b.toNat ∧ b.toNat < fssize := by
  have size : standard.sb.size.toNat = fssize := rfl
  rw [Free,used_view small,size,decide_eq_false_iff_not]
  omega

def Host.put (h : Host) (b : Blockno) (data : Block) : Host := {h with image := update h.image b data}

theorem rsect_step {f : Block → H α} (inside : b.toNat < h.length) (rest : Meets (f (h.image b)) h post fail) :
    Meets (rsect b >>= f) h post fail := .step (if_pos inside) rest

theorem rsect_stop {f : Block → H α} (behind : h.length ≤ b.toNat) (one : fail .one) : Meets (rsect b >>= f) h post fail :=
  .stop (if_neg (Nat.not_lt.mpr behind)) one

theorem wsect_run (inside : b.toNat < h.length) (data : Block) : wsect b data h = .ok ((),h.put b data) := by
  rw [wsect,max_eq_left inside]
  rfl

theorem view_put (other : b ≠ standard.sb.bmapstart) (data : Block) : view (h.put b data) = update (view h) b data := by
  rw [layout] at other
  rw [view,view]
  exact update_comm other _ _ _

/-- The host after `freeblock++`. -/
def Host.advance (h : Host) : Host := {h with freeblock := h.freeblock + 1}

theorem toNat_succ {x : UInt32} (small : x.toNat < 2^32 - 1) : (x + 1).toNat = x.toNat + 1 := by
  rw [UInt32.toNat_add,UInt32.toNat_one]
  omega

theorem Growing.free (growing : Growing h F) (more : h.freeblock.toNat < fssize) : Free standard (view h) h.freeblock :=
  (free_view growing.high).mpr ⟨Nat.le_refl _,more⟩

theorem Growing.view_advance (growing : Growing h F) (more : h.freeblock.toNat < fssize) :
    view h.advance = taken standard (view h) h.freeblock := by
  have free := growing.free more
  have apart := growing.owned.free_bitmap free
  have next : h.advance.freeblock.toNat = h.freeblock.toNat + 1 := toNat_succ (by simp only [fssize] at more; omega)
  funext x
  by_cases first : x = standard.sb.bmapstart
  · rw [first,view_bitmap,next,taken,update_of_ne apart.symm,update_self,view_bitmap,bitmap,List.range_succ,
      List.foldl_append]
    rfl
  · rw [view_other _ first]
    by_cases same : x = h.freeblock
    · rw [same,taken_self]
      exact growing.blank _ (Nat.le_refl _)
    · rw [taken_other first same,view_other _ first]
      rfl

theorem advance_toNat (more : h.freeblock.toNat < fssize) : h.advance.freeblock.toNat = h.freeblock.toNat + 1 :=
  toNat_succ (by simp only [fssize] at more; omega)

theorem Counted.advance (counted : Counted h) (more : h.freeblock.toNat < fssize) : Counted h.advance := by
  have next := advance_toNat more
  refine ⟨counted.length,?_,?_,fun b behind => counted.blank b ?_⟩
  · have := counted.low
    omega
  · omega
  · omega

theorem Counted.put (counted : Counted h) (below : b.toNat < h.freeblock.toNat) (data : Block) : Counted (h.put b data) := by
  refine ⟨counted.length,counted.low,counted.high,fun x behind => ?_⟩
  refine (update_of_ne ?_ _ _).trans (counted.blank x behind)
  rintro rfl
  exact absurd below (Nat.not_lt.mpr behind)

structure Placed (i : UInt32) (bn : Nat) (F F' : Files) (h h' : Host) (r : Blockno × Inode) : Prop where
  grown : Grown standard i F F' (view h) (view h')
  growing : Growing h' F'
  inode : r.2 = F' i
  stored : r.1 = ptr F' (view h') (slot i bn)
  present : r.1 ≠ 0
  only : ∀ σ : Place, σ.Leaf depth → σ ≠ slot i bn → ptr F' (view h') σ = ptr F (view h) σ
  node : (F' i).addrs 12 = 0 ↔ (F i).addrs 12 = 0 ∧ bn < ndirect
  spent : h'.freeblock.toNat = h.freeblock.toNat + (if ptr F (view h) (slot i bn) = 0 then 1 else 0) + gap F i bn
  inodes : h'.freeinode = h.freeinode
  same : ptr F (view h) (slot i bn) ≠ 0 → F' = F ∧ h' = h

theorem Growing.pointer_lt (growing : Growing h F) {σ : Place} (within : σ.Within depth) (there : ptr F (view h) σ ≠ 0) :
    (ptr F (view h) σ).toNat < h.freeblock.toNat := by
  have marked := growing.owned.marked σ within there
  rwa [used_view growing.high,decide_eq_true_eq] at marked

theorem placed_present {bn : Nat} (growing : Growing h F) (present : ptr F (view h) (slot i bn) ≠ 0) :
    Placed i bn F F h h (ptr F (view h) (slot i bn),F i) := by
  have node : ndirect ≤ bn → (F i).addrs 12 ≠ 0 := fun deep missing => present (ptr_slot_missing (Nat.not_lt.mpr deep) missing)
  refine ⟨⟨.refl growing.owned i,fun σ _ there => by rw [if_neg there]⟩,growing,rfl,rfl,present,fun _ _ _ => rfl,?_,?_,rfl,fun _ => ⟨rfl,rfl⟩⟩
  · by_cases deep : ndirect ≤ bn
    · simp [node deep]
    · simp [Nat.not_le.mp deep]
  · have whole : gap F i bn = 0 := if_neg fun both => node both.1 both.2
    rw [if_neg present,whole,Nat.add_zero]

theorem placed_root {bn : Nat} (growing : Growing h F) (direct : bn < ndirect) (empty : ptr F (view h) (slot i bn) = 0)
    (more : h.freeblock.toNat < fssize) :
    ∃ F', Placed i bn F F' h h.advance
      (h.freeblock,{F i with addrs := update (F i).addrs ⟨bn,direct_lt direct⟩ h.freeblock}) := by
  have free := growing.free more
  have hole := empty
  rw [ptr_slot_direct direct] at hole
  have attached := attached_root growing.owned free hole
  rw [← growing.view_advance more] at attached
  have grown := attached.grown growing.owned
  have place : slot i bn = ⟨(i,⟨bn,direct_lt direct⟩),[]⟩ := by rw [slot,dif_pos direct]
  have other : (12 : Fin 13) ≠ ⟨bn,direct_lt direct⟩ := by
    intro same
    have values := congrArg Fin.val same
    simp only [ndirect] at direct
    simp at values
    omega
  refine ⟨_,grown,⟨growing.toCounted.advance more,grown.owned⟩,?_,?_,growing.owned.free_pos free,?_,?_,?_,rfl,fun there => absurd empty there⟩
  · rw [update_self]
  · have here := attached.ptr _ attached.within
    rw [if_pos rfl] at here
    rw [place]
    exact here.symm
  · intro σ leaf apart
    rw [place] at apart
    rw [attached.ptr σ leaf.within,if_neg apart]
  · rw [update_self]
    simp [direct,update_of_ne other]
  · rw [if_pos empty,advance_toNat more,gap,if_neg (by omega)]

theorem placed_entry {bn : Nat} (growing : Growing h F) (far : ¬bn < ndirect) (near : bn < maxfile) (node : (F i).addrs 12 ≠ 0)
    (empty : ptr F (view h) (slot i bn) = 0) (more : h.freeblock.toNat < fssize) :
    Placed i bn F F h
      (h.advance.put ((F i).addrs 12) ((h.image ((F i).addrs 12)).setU32 (4 * (bn - ndirect)) h.freeblock))
      (h.freeblock,F i) := by
  have free := growing.free more
  have inner : Slot.Inner depth (⟨(i,12),[]⟩ : Place) := Nat.zero_lt_one
  have node' : ptr F (view h) ⟨(i,12),[]⟩ ≠ 0 := node
  have apart : (F i).addrs 12 ≠ standard.sb.bmapstart := growing.owned.ne_bitmap inner.within node'
  have place := slot_indirect (i := i) far
  have hole := empty
  rw [place] at hole
  have attached := attached_entry growing.owned free node hole
  rw [ofNat_index near,← growing.view_advance more,view_other h apart,← view_put apart] at attached
  have grown := attached.grown growing.owned
  have below : ((F i).addrs 12).toNat < h.advance.freeblock.toNat := by
    rw [advance_toNat more]
    exact Nat.lt_succ_of_lt (growing.pointer_lt inner.within node')
  refine ⟨grown,⟨(growing.toCounted.advance more).put below _,grown.owned⟩,rfl,?_,growing.owned.free_pos free,?_,?_,?_,rfl,fun there => absurd empty there⟩
  · rw [place,attached.ptr _ attached.within,if_pos rfl]
  · intro σ leaf apart'
    rw [place] at apart'
    rw [attached.ptr σ leaf.within,if_neg apart']
  · simp [node]
  · have whole : gap F i bn = 0 := if_neg fun both => node both.2
    rw [if_pos empty,whole]
    exact advance_toNat more

theorem placed_node (growing : Growing h F) (missing : (F i).addrs 12 = 0) (more : h.freeblock.toNat < fssize) :
    ∃ F', F' i = {F i with addrs := update (F i).addrs 12 h.freeblock} ∧ (F' i).addrs 12 = h.freeblock ∧
      Grown standard i F F' (view h) (view h.advance) ∧ Growing h.advance F' ∧
      ∀ σ : Place, σ.Leaf depth → ptr F' (view h.advance) σ = ptr F (view h) σ := by
  have free := growing.free more
  have attached := attached_root growing.owned free missing
  rw [← growing.view_advance more] at attached
  have grown := attached.grown growing.owned
  refine ⟨_,update_self _ _ _,?_,grown,⟨growing.toCounted.advance more,grown.owned⟩,fun σ leaf => ?_⟩
  · rw [update_self]
    exact update_self (12 : Fin 13) h.freeblock (F i).addrs
  · have inner : σ ≠ ⟨(i,12),[]⟩ := by
      rintro rfl
      exact Nat.zero_ne_one leaf
    rw [attached.ptr σ leaf.within,if_neg inner]

theorem entry_meets {bn : Nat} (growing : Growing h F) (far : ¬bn < ndirect) (near : bn < maxfile) (node : (F i).addrs 12 ≠ 0)
    (room : ptr F (view h) (slot i bn) = 0 → fssize ≤ h.freeblock.toNat → fail .one) :
    Meets (do
      let indirect ← rsect ((F i).addrs 12)
      if word indirect (bn - ndirect) = 0 then
        let b ← nextBlock
        wsect ((F i).addrs 12) (indirect.setU32 (4 * (bn - ndirect)) b)
        return (b,F i)
      else return (word indirect (bn - ndirect),F i)) h
      (fun r h' => (fssize ≤ r.1.toNat ∧ h'.length = fssize ∧ fail .one) ∨ Placed i bn F F h h' r) fail := by
  have inner : Slot.Inner depth (⟨(i,12),[]⟩ : Place) := Nat.zero_lt_one
  have node' : ptr F (view h) ⟨(i,12),[]⟩ ≠ 0 := node
  have apart : (F i).addrs 12 ≠ standard.sb.bmapstart := growing.owned.ne_bitmap inner.within node'
  have below : ((F i).addrs 12).toNat < h.freeblock.toNat := growing.pointer_lt inner.within node'
  have inside : ((F i).addrs 12).toNat < h.length := by
    rw [growing.length]
    exact Nat.lt_of_lt_of_le below growing.high
  have pointer : ptr F (view h) (slot i bn) = word (h.image ((F i).addrs 12)) (bn - ndirect) := by
    rw [ptr_slot_indirect far near node,view_other h apart]
  refine rsect_step inside ?_
  by_cases empty : word (h.image ((F i).addrs 12)) (bn - ndirect) = 0
  · rw [if_pos empty]
    refine .step (t := h.advance) rfl (.step (wsect_run (h := h.advance) inside _) (.pure_intro ?_))
    by_cases more : h.freeblock.toNat < fssize
    · exact .inr (placed_entry growing far near node (pointer.trans empty) more)
    · exact .inl ⟨Nat.not_lt.mp more,growing.length,room (pointer.trans empty) (Nat.not_lt.mp more)⟩
  · rw [if_neg empty]
    refine .pure_intro (.inr ?_)
    have placed := placed_present growing (by rw [pointer]; exact empty)
    rwa [pointer] at placed

theorem appendBlock_meets {bn : Nat} (growing : Growing h F) (near : bn < maxfile)
    (room : fssize < h.freeblock.toNat + (if ptr F (view h) (slot i bn) = 0 then 1 else 0) + gap F i bn → fail .one) :
    Meets (appendBlock (F i) bn) h
      (fun r h' => (fssize ≤ r.1.toNat ∧ h'.length = fssize ∧ fail .one) ∨ ∃ F', Placed i bn F F' h h' r) fail := by
  rw [appendBlock]
  by_cases direct : bn < ndirect
  · rw [dif_pos direct]
    have pointer := ptr_slot_direct (F := F) (v := view h) (i := i) direct
    by_cases empty : (F i).addrs ⟨bn,direct_lt direct⟩ = 0
    · simp only [if_pos empty]
      refine .step (t := h.advance) rfl (.pure_intro ?_)
      by_cases more : h.freeblock.toNat < fssize
      · exact .inr (placed_root growing direct (pointer.trans empty) more)
      · refine .inl ⟨Nat.not_lt.mp more,growing.length,room ?_⟩
        rw [if_pos (pointer.trans empty)]
        omega
    · simp only [if_neg empty]
      refine .pure_intro (.inr ⟨F,?_⟩)
      have placed := placed_present growing (by rw [pointer]; exact empty)
      rwa [pointer] at placed
  · rw [dif_neg direct]
    by_cases missing : (F i).addrs 12 = 0
    · have deep : gap F i bn = 1 := if_pos ⟨Nat.not_lt.mp direct,missing⟩
      have hole : ptr F (view h) (slot i bn) = 0 := ptr_slot_missing direct missing
      rw [deep,if_pos hole] at room
      rw [if_pos missing]
      by_cases more : h.freeblock.toNat < fssize
      · obtain ⟨F₁,inode,root,grown,growing₁,same⟩ := placed_node growing missing more
        have there : (F₁ i).addrs 12 ≠ 0 := by
          rw [root]
          exact growing.owned.free_pos (growing.free more)
        have next := advance_toNat more
        refine .step (a := F₁ i) (t := h.advance) (by rw [inode]; rfl) ?_
        refine (entry_meets growing₁ direct near there (fun _ full => room (by omega))).mono
          (fun r h' => Or.imp_right fun placed => ⟨F₁,?_⟩) (fun _ => id)
        have empty : ptr F₁ (view h.advance) (slot i bn) = 0 := (same _ (slot_leaf i bn)).trans hole
        have spent := placed.spent
        rw [if_pos empty,next,gap,if_neg (fun both => there both.2)] at spent
        refine ⟨grown.trans placed.grown,placed.growing,placed.inode,placed.stored,placed.present,fun σ leaf other => ?_,?_,?_,
          placed.inodes,fun there => absurd hole there⟩
        · rw [placed.only σ leaf other,same σ leaf]
        · simp [there,direct]
        · rw [if_pos hole,deep,spent]
      · refine .step (a := {F i with addrs := update (F i).addrs 12 h.freeblock}) (t := h.advance) rfl ?_
        refine rsect_stop ?_ (room (by omega))
        have length : h.advance.length = fssize := growing.length
        rw [length]
        simpa using Nat.not_lt.mp more
    · rw [if_neg missing]
      refine .step (a := F i) (t := h) rfl ?_
      refine (entry_meets growing direct near missing (fun empty full => room ?_)).mono (fun r h' => Or.imp_right fun placed => ⟨F,placed⟩)
        (fun _ => id)
      rw [if_pos empty]
      omega

structure Full (F : Files) (v : Blockno → Block) (i : UInt32) (size : Nat) : Prop where
  blocks : ∀ bn < maxfile, ptr F v (slot i bn) ≠ 0 ↔ bn * bsize < size
  node : (F i).addrs 12 ≠ 0 ↔ ndirect * bsize < size

def blocksOf (size : Nat) : Nat := (size + bsize - 1) / bsize + if ndirect * bsize < size then 1 else 0

theorem Placed.store {h₁ : Host} {r : Blockno × Inode} {off m : Nat} (placed : Placed i (off / bsize) F F' h h₁ r)
    (near : off / bsize < maxfile) (positive : 0 < m) (short : m ≤ bsize - off % bsize) (f : Nat → UInt8) :
    Wrote standard i off m f F F' (view h) (view (h₁.put r.1 ((h₁.image r.1).patch (off % bsize) m f))) ∧
      Growing (h₁.put r.1 ((h₁.image r.1).patch (off % bsize) m f)) F' := by
  have leaf := slot_leaf i (off / bsize)
  have owned := placed.growing.owned
  have present := placed.present
  have stored := placed.stored
  rw [stored] at present ⊢
  have apart := owned.ne_bitmap leaf.within present
  have shape := view_put (h := h₁) apart ((h₁.image (ptr F' (view h₁) (slot i (off / bsize)))).patch (off % bsize) m f)
  have wrote := placed.grown.wrote near positive short present placed.only
    (fun there => (placed.same there).imp_right (congrArg view)) f
  rw [view_other h₁ apart,← shape] at wrote
  have below := placed.growing.pointer_lt leaf.within present
  exact ⟨wrote,placed.growing.toCounted.put below _,wrote.evolved.owned⟩

theorem Full.missing {v : Blockno → Block} {off : Nat} (full : Full F v i off) : (F i).addrs 12 = 0 ↔ off ≤ 12 * 2048 := by
  have node : (F i).addrs 12 ≠ 0 ↔ 12 * 2048 < off := full.node
  rw [← Nat.not_lt,← node,not_not]

theorem Full.hole {v : Blockno → Block} {off : Nat} (full : Full F v i off) (near : off / bsize < maxfile) :
    ptr F v (slot i (off / bsize)) = 0 ↔ off % 2048 = 0 := by
  have block : ptr F v (slot i (off / bsize)) ≠ 0 ↔ off / 2048 * 2048 < off := full.blocks _ near
  rw [← not_iff_not,← ne_eq,block]
  omega

theorem Full.after {v' : Blockno → Block} {v : Blockno → Block} {off m : Nat} {f : Nat → UInt8} (full : Full F v i off)
    (positive : 0 < m) (short : m ≤ bsize - off % bsize) (wrote : Wrote standard i off m f F F' v v')
    (node : (F' i).addrs 12 = 0 ↔ (F i).addrs 12 = 0 ∧ off / bsize < ndirect) : Full F' v' i (off + m) := by
  have short : m ≤ 2048 - off % 2048 := short
  refine ⟨fun bn inside => ?_,?_⟩
  · show _ ↔ bn * 2048 < off + m
    by_cases here : bn = off / 2048
    · have there := (wrote.filled off (Nat.le_refl _) (by omega)).2
      rw [show off / bsize = bn from here.symm] at there
      exact iff_of_true there (by omega)
    · have same : ptr F' v' (slot i bn) = ptr F v (slot i bn) := by
        refine wrote.only _ (slot_leaf i bn) fun x lower upper equal => here ?_
        have blocks : bn = x / 2048 := (slot_inj inside (wrote.filled x lower upper).1 equal).2
        omega
      have before : ptr F v (slot i bn) ≠ 0 ↔ bn * 2048 < off := full.blocks bn inside
      rw [same,before]
      omega
  · have after : (F' i).addrs 12 = 0 ↔ (F i).addrs 12 = 0 ∧ off / 2048 < 12 := node
    show ¬_ ↔ 12 * 2048 < off + m
    rw [after,full.missing]
    omega

theorem Full.cost {v : Blockno → Block} {off m : Nat} (full : Full F v i off) (near : off / bsize < maxfile) (positive : 0 < m)
    (short : m ≤ bsize - off % bsize) :
    blocksOf off + (if ptr F v (slot i (off / bsize)) = 0 then 1 else 0) + gap F i (off / bsize) = blocksOf (off + m) := by
  have short : m ≤ 2048 - off % 2048 := short
  have few : gap F i (off / bsize) = if 12 ≤ off / 2048 ∧ off ≤ 12 * 2048 then 1 else 0 := by
    simp only [gap,full.missing]
    rfl
  have one : (if ptr F v (slot i (off / bsize)) = 0 then 1 else 0) = if off % 2048 = 0 then 1 else 0 := by
    simp only [full.hole near]
  have count (n : Nat) : blocksOf n = (n + 2047) / 2048 + if 12 * 2048 < n then 1 else 0 := rfl
  rw [few,one,count,count]
  split_ifs <;> omega

theorem blocksOf_mono {m n : Nat} (order : m ≤ n) : blocksOf m ≤ blocksOf n := by
  have count (n : Nat) : blocksOf n = (n + 2047) / 2048 + if 12 * 2048 < n then 1 else 0 := rfl
  rw [count,count]
  split_ifs <;> omega

structure Grew (i : UInt32) (off n : Nat) (p : Nat → UInt8) (F F' : Files) (h h' : Host) : Prop where
  wrote : Wrote standard i off n p F F' (view h) (view h')
  growing : Growing h' F'
  full : Full F' (view h') i (off + n)
  spent : h'.freeblock.toNat + blocksOf off = h.freeblock.toNat + blocksOf (off + n)
  inodes : h'.freeinode = h.freeinode

theorem Grew.trans {h₁ h₂ : Host} {F₂ : Files} {off m n : Nat} {p : Nat → UInt8} (first : Grew i off m p F F' h h₁)
    (rest : Grew i (off + m) n (fun j => p (m + j)) F' F₂ h₁ h₂) : Grew i off (m + n) p F F₂ h h₂ := by
  refine ⟨first.wrote.trans rest.wrote,rest.growing,?_,?_,rest.inodes.trans first.inodes⟩
  · rw [← Nat.add_assoc]
    exact rest.full
  · have := first.spent
    have := rest.spent
    rw [← Nat.add_assoc]
    omega

theorem round_meets {off m : Nat} {f : Nat → UInt8} {k : Inode → H α} (growing : Growing h F) (full : Full F (view h) i off)
    (near : off / bsize < maxfile) (positive : 0 < m) (short : m ≤ bsize - off % bsize)
    (room : fssize + blocksOf off < h.freeblock.toNat + blocksOf (off + m) → fail .one)
    (rest : ∀ F' h', Grew i off m f F F' h h' → Meets (k (F' i)) h' post fail) :
    Meets (do
      let (x,din) ← appendBlock (F i) (off / bsize)
      let buf ← rsect x
      wsect x (buf.patch (off - off / bsize * bsize) m f)
      k din) h post fail := by
  have cost := full.cost near positive short
  have offset : off - off / bsize * bsize = off % bsize := by
    have := Nat.div_add_mod off bsize
    rw [Nat.mul_comm] at this
    omega
  refine (appendBlock_meets growing near (fun past => room (by omega))).bind ?_
  rintro r h₁ (⟨behind,length,one⟩ | ⟨F',placed⟩)
  · exact rsect_stop (by rw [length]; exact behind) one
  · have below : r.1.toNat < h₁.length := by
      rw [placed.stored,placed.growing.length]
      have there := placed.present
      rw [placed.stored] at there
      exact Nat.lt_of_lt_of_le (placed.growing.pointer_lt (slot_leaf i _).within there) placed.growing.high
    obtain ⟨wrote,growing'⟩ := placed.store near positive short f
    refine rsect_step below (.step (wsect_run below _) ?_)
    rw [offset]
    show Meets (k r.2) _ _ _
    rw [placed.inode]
    refine rest F' _ ⟨wrote,growing',full.after positive short wrote placed.node,?_,placed.inodes⟩
    have spent := placed.spent
    show h₁.freeblock.toNat + _ = _
    omega

theorem appendLoop_meets (fuel : Nat) {off n : Nat} {p : Nat → UInt8} (growing : Growing h F) (full : Full F (view h) i off)
    (enough : n ≤ fuel) (limit : maxfile * bsize < off + n → fail .abort)
    (room : fssize + blocksOf off < h.freeblock.toNat + blocksOf (off + n) → fail .one) :
    Meets (appendLoop fuel (F i) off p n) h (fun r h' => ∃ F', r = (F' i,off + n) ∧ Grew i off n p F F' h h') fail := by
  induction fuel generalizing h F off n p with
  | zero =>
    obtain rfl : n = 0 := by omega
    rw [appendLoop,if_neg (Nat.lt_irrefl 0)]
    exact .pure_intro ⟨F,rfl,.nothing growing.owned i off p,growing,full,rfl,rfl⟩
  | succ fuel ih =>
    rw [appendLoop]
    by_cases more : 0 < n
    · rw [if_pos more]
      by_cases near : off / bsize < maxfile
      · simp only [if_pos near]
        generalize count : min n ((off / bsize + 1) * bsize - off) = m
        have left : m ≤ n := by omega
        have positive : 0 < m := by
          simp only [bsize] at count
          omega
        have short : m ≤ bsize - off % bsize := by
          simp only [bsize] at count ⊢
          omega
        have mono := blocksOf_mono (show off + m ≤ off + n by omega)
        refine round_meets (f := p) (k := fun din => appendLoop fuel din (off + m) (fun j => p (m + j)) (n - m)) growing full near
          positive short (fun past => room (by omega)) fun F₁ h₁ grew => ?_
        have spent := grew.spent
        have total : off + m + (n - m) = off + n := by omega
        refine (ih grew.growing grew.full (by omega) (fun past => limit (by omega)) (fun past => room ?_)).mono ?_ (fun _ => id)
        · rw [total] at past
          omega
        · rintro _ h₂ ⟨F₂,rfl,rest⟩
          refine ⟨F₂,by rw [total],?_⟩
          have whole := grew.trans rest
          rwa [Nat.add_sub_cancel' left] at whole
      · simp only [if_neg near]
        have far : ¬off / 2048 < 524 := near
        refine .of_error rfl (limit ?_)
        show 524 * 2048 < off + n
        omega
    · obtain rfl : n = 0 := by omega
      rw [if_neg (Nat.lt_irrefl 0)]
      exact .pure_intro ⟨F,rfl,.nothing growing.owned i off p,growing,full,rfl,rfl⟩

end

end Xv6Ext2.Mkfs
