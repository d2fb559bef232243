import Xv6Ext2.Ext2.File

/-! What reading and writing does to a well-formed file: a file is the sequence of bytes its slots
hold, reading copies it, and writing changes the bytes in the written range. -/
namespace Xv6Ext2.Ext2
open Lib Bio Function

/-- Byte `x` of a file, as cached; a hole reads as zero. -/
def content (ip : Inode) (o : Obs) (x : Nat) : UInt8 :=
  if ptr ip o (driverSlot (x / bsize)) = 0 then 0
  else (o.view (ptr ip o (driverSlot (x / bsize)))).byte (x % bsize)

/-- Blocks that `ext2_bmap` keeps apart: the direct and single-indirect ones. -/
def nearBlocks : Nat := ndirBlocks + nindirect

theorem nearBytes_eq : nearBlocks * bsize = 1073152 := by decide

theorem driverSlot_leaf (bn : Nat) : Slot.Leaf driverDepth (driverSlot bn) := by
  unfold driverSlot
  split_ifs with direct
  · simp [Slot.Leaf,driverDepth,direct]
  · rfl
  · rfl

theorem driverSlot_inj {bn other : Nat} (near : bn < nearBlocks) (near' : other < nearBlocks)
    (same : driverSlot bn = driverSlot other) : bn = other := by
  rw [nearBlocks,nindirect_eq] at near near'
  rw [driverSlot,driverSlot,nindirect_eq] at same
  split_ifs at same
  · simpa using same
  · simp at same
  · omega
  · simp at same
  · have index : Fin.ofNat 512 (bn - ndirBlocks) = Fin.ofNat 512 (other - ndirBlocks) := by simpa using same
    have values := congrArg Fin.val index
    rw [Fin.val_ofNat,Fin.val_ofNat,Nat.mod_eq_of_lt (by omega),Nat.mod_eq_of_lt (by omega)] at values
    omega
  all_goals omega

section

variable {fs : Mount} {ip ip' : Inode} {o o' : Obs}

theorem Grown.content_eq (grown : Grown fs driverDepth ip ip' o o') (x : Nat) :
    content ip' o' x = content ip o x := by
  have leaf := driverSlot_leaf (x / bsize)
  rw [content,content]
  by_cases empty' : ptr ip' o' (driverSlot (x / bsize)) = 0
  · have empty : ptr ip o (driverSlot (x / bsize)) = 0 := by
      by_contra present
      exact present ((grown.keeps _ leaf.within present).symm.trans empty')
    rw [if_pos empty',if_pos empty]
  · rw [if_neg empty',grown.data _ leaf empty']
    split_ifs with empty
    · exact Bytes.byte_zero _ _
    · rfl

theorem ptr_write {depth : Fin 15 → Nat} {b : Blockno}
    (apart : ∀ ρ : Place, ρ.Inner depth → ptr ip o ρ ≠ 0 → ptr ip o ρ ≠ b) (data : Block) (τ : Place)
    (within : τ.Within depth) : ptr ip (o.write b data) τ = ptr ip o τ := by
  refine Slot.ptr_congr ?_ τ within
  intro ρ inner there k
  rw [entry,entry]
  simp only [Obs.write]
  exact congrArg (word · k) (update_of_ne (apart ρ inner there) _ _)

theorem Wf.write {depth : Fin 15 → Nat} (wf : Wf fs depth ip o) {b : Blockno}
    (apart : ∀ ρ : Place, ρ.Inner depth → ptr ip o ρ ≠ 0 → ptr ip o ρ ≠ b) (desc_ne : b ≠ 1)
    (bitmap_ne : b ≠ bitmapOf fs o ip.inum) (data : Block) : Wf fs depth ip (o.write b data) := by
  have same := ptr_write apart data
  have descView : (o.write b data).view 1 = o.view 1 := update_of_ne desc_ne.symm _ _
  have bitmapView : (o.write b data).view (bitmapOf fs o ip.inum) = o.view (bitmapOf fs o ip.inum) :=
    update_of_ne bitmap_ne.symm _ _
  refine ⟨wf.group,wf.idle,?_,?_,?_,?_,?_⟩
  · rw [bitmapOf_congr descView]; exact wf.bitmap_ne
  · rw [bitmapOf_congr descView,tableOf_congr descView]; exact wf.table_ne
  · intro τ ρ within within' there equal
    rw [same τ within] at there equal
    rw [same ρ within'] at equal
    exact wf.distinct τ ρ within within' there equal
  · intro τ within there
    rw [same τ within] at there ⊢
    rw [Reserved.congr descView]
    exact wf.plain τ within there
  · intro z clear
    rw [Clear,bitmapOf_congr descView,bitmapView] at clear
    rw [bitmapOf_congr descView,Reserved.congr descView]
    obtain ⟨nonzero,unreserved,unused⟩ := wf.fresh z clear
    refine ⟨nonzero,unreserved,?_⟩
    intro τ within
    rw [same τ within]
    exact unused τ within

theorem Wf.leaf_apart (wf : Wf fs driverDepth ip o) {σ : Place} (leaf : σ.Leaf driverDepth) (ρ : Place)
    (inner : ρ.Inner driverDepth) (there : ptr ip o ρ ≠ 0) : ptr ip o ρ ≠ ptr ip o σ := by
  intro same
  have slots := wf.distinct ρ σ inner.within leaf.within there same
  rw [slots] at inner
  exact absurd leaf (Nat.ne_of_lt inner)

theorem evolved_write_leaf (wf : Wf fs driverDepth ip o) {σ : Place} (leaf : σ.Leaf driverDepth)
    (present : ptr ip o σ ≠ 0) (data : Block) :
    Evolved fs driverDepth ip ip o (o.write (ptr ip o σ) data) := by
  have same := ptr_write (wf.leaf_apart leaf) data
  have plain := wf.plain σ leaf.within present
  simp only [Reserved,not_or] at plain
  refine ⟨wf.write (wf.leaf_apart leaf) plain.1 plain.2.1 data,rfl,fun τ within _ => same τ within,?_⟩
  intro b _ apart
  have other : b ≠ ptr ip o σ := by
    rintro rfl
    exact apart σ leaf.within (by rw [same σ leaf.within]; exact present) (same σ leaf.within)
  exact ⟨update_of_ne other _ _,update_of_ne other _ _⟩

theorem content_write_leaf (wf : Wf fs driverDepth ip o) {bn : Nat} (near : bn < nearBlocks)
    (present : ptr ip o (driverSlot bn) ≠ 0) (data : Block) {x : Nat} (inside : x / bsize < nearBlocks) :
    content ip (o.write (ptr ip o (driverSlot bn)) data) x =
      if x / bsize = bn then data.byte (x % bsize) else content ip o x := by
  have leaf := driverSlot_leaf bn
  rw [content,content,ptr_write (wf.leaf_apart leaf) data _ (driverSlot_leaf _).within]
  by_cases here : x / bsize = bn
  · rw [here,if_neg present,if_pos rfl]
    simp [Obs.write]
  · rw [if_neg here]
    split_ifs with empty
    · rfl
    · have apart : ptr ip o (driverSlot (x / bsize)) ≠ ptr ip o (driverSlot bn) := by
        intro same
        have slots := wf.distinct _ _ (driverSlot_leaf _).within leaf.within empty same
        exact here (driverSlot_inj inside near slots)
      simp only [Obs.write]
      rw [update_of_ne apart]

theorem room_congr {inum : UInt32} (descView : o'.view 1 = o.view 1)
    (bitmapView : o'.view (bitmapOf fs o inum) = o.view (bitmapOf fs o inum)) :
    room fs o' inum = room fs o inum := by
  have clear (z : Nat) : Clear fs o' inum z ↔ Clear fs o inum z := by
    rw [Clear,Clear,bitmapOf_congr descView,bitmapView]
  exact congrArg Finset.card (Finset.filter_congr (fun z _ => clear z))

theorem room_write {inum : UInt32} {b : Blockno} (desc_ne : b ≠ 1) (bitmap_ne : b ≠ bitmapOf fs o inum)
    (data : Block) : room fs (o.write b data) inum = room fs o inum :=
  room_congr (update_of_ne desc_ne.symm _ _) (update_of_ne bitmap_ne.symm _ _)

/-- Why a loop from `off` on may stop at byte `x`: its block is a hole and no blocks may be left, or
the block is so far behind that the driver cannot map it. -/
def Missing (fs : Mount) (ip : Inode) (o : Obs) (off x : Nat) : Prop :=
  ptr ip o (driverSlot (x / bsize)) = 0 ∧ room fs o ip.inum < 2 * (x / bsize - off / bsize + 1) ∨
    driverBlocks ≤ x / bsize

theorem Evolved.missing (evolved : Evolved fs driverDepth ip ip' o o')
    (spent : room fs o ip.inum ≤ room fs o' ip.inum + 2) {off off' x : Nat} (next : off' / bsize = off / bsize + 1)
    (later : off' ≤ x) (missing : Missing fs ip' o' off' x) : Missing fs ip o off x := by
  have order := Nat.div_le_div_right (c := bsize) later
  refine missing.imp_left ?_
  rintro ⟨empty,few⟩
  refine ⟨?_,?_⟩
  · by_contra there
    exact there ((evolved.keeps _ (driverSlot_leaf _).within there).symm.trans empty)
  · rw [evolved.inum_eq] at few
    omega

private theorem round_block {off m j : Nat} (small : m ≤ bsize - off % bsize) (bound : j < m) :
    (off + j) / bsize = off / bsize ∧ (off + j) % bsize = off % bsize + j := by
  have positive : 0 < bsize := by decide
  have split := Nat.div_add_mod off bsize
  have low := Nat.mod_lt off positive
  have sum : off + j = off % bsize + j + bsize * (off / bsize) := by omega
  rw [sum,Nat.add_mul_div_left _ _ positive,Nat.add_mul_mod_self_left,Nat.div_eq_of_lt (by omega),
    Nat.mod_eq_of_lt (by omega),Nat.zero_add]
  exact ⟨rfl,rfl⟩

private theorem content_round {addr : Blockno} {off m : Nat} (short : m ≤ bsize - off % bsize)
    (stored : addr = ptr ip o (driverSlot (off / bsize))) (present : addr ≠ 0) {j : Nat} (bound : j < m) :
    content ip o (off + j) = (o.view addr).byte (off % bsize + j) := by
  obtain ⟨block,byte⟩ := round_block short bound
  rw [content,block,byte,← stored,if_neg present]

private theorem round_next {off m len x : Nat} (count : min len (bsize - off % bsize) = m) (lower : off + m ≤ x)
    (upper : x < off + len) : (off + m) / bsize = off / bsize + 1 := by
  simp only [bsize] at count ⊢
  omega

private theorem readLoop_done (fs : Mount) (fuel : Nat) (ip : Inode) (dst : Nat → UInt8) {tot n : Nat} (off : Nat)
    (d : Dev) (done : ¬tot < n) : readLoop fs fuel ip dst tot off n d = .ok ((dst,ip),d) := by
  cases fuel <;> rw [readLoop,if_neg done] <;> rfl

structure WasRead (fs : Mount) (ip ip' : Inode) (o o' : Obs) (off len : Nat) : Prop where
  grown : Grown fs driverDepth ip ip' o o'
  root_kept : (∀ x, off ≤ x → x < off + len → ip.addrs (driverSlot (x / bsize)).root ≠ 0) → ip' = ip
  same : (∀ x, off ≤ x → x < off + len → ptr ip o (driverSlot (x / bsize)) ≠ 0) → ip' = ip ∧ o' = o

theorem readLoop_meets (careful : Careful fs.recycle) (fuel : Nat) {ip : Inode} {dst : Nat → UInt8}
    {tot off n : Nat} {d : Dev} (wf : Wf fs driverDepth ip (obs d)) (enough : n - tot ≤ fuel) :
    Meets (readLoop fs fuel ip dst tot off n) d
      (fun r d' => WasRead fs ip r.2 (obs d) (obs d') off (n - tot) ∧
        r.1 = poke dst tot (n - tot) (fun j => content ip (obs d) (off + j)))
      (fun _ => ∃ x, off ≤ x ∧ x < off + (n - tot) ∧ Missing fs ip (obs d) off x) := by
  induction fuel generalizing ip dst tot off d with
  | zero =>
    refine .of_ok (readLoop_done fs 0 ip dst off d (by omega)) ⟨⟨.refl wf,fun _ => rfl,fun _ => ⟨rfl,rfl⟩⟩,?_⟩
    rw [show n - tot = 0 by omega,poke_nothing]
  | succ fuel ih =>
    by_cases more : tot < n
    · rw [readLoop,if_pos more]
      refine ((bmap_returns careful (fun _ => Nat.le_refl _) wf (off / bsize)).excuse
        (fun _ failed => ⟨off,Nat.le_refl _,by omega,failed.imp_left (fun full => ⟨full.1,by omega⟩)⟩)).bind ?_
      rintro ⟨addr,ip₁⟩ d₁ ⟨grown,stored,present,root,same,spent⟩
      dsimp only at grown stored present root same spent ⊢
      obtain ⟨d₂,ran₂,locked⟩ := bread_run (b := addr) (careful d₁) (grown.wf.idle _)
      obtain ⟨d₃,ran₃,released⟩ := brelse_run (d := d₂) (b := addr) (by simp [locked,Obs.lock])
      have view : (obs d₂).view addr = (obs d₁).view addr := by rw [locked]; rfl
      rw [locked,Obs.unlock_lock _ _ (grown.wf.idle _)] at released
      refine .step ran₂ (.step (bdata_run (by simp [locked,Obs.lock])) (.step ran₃ ?_))
      rw [view,← released]
      generalize count : min (n - tot) (bsize - off % bsize) = m
      have low : off % bsize < bsize := Nat.mod_lt _ (by decide)
      have short : m ≤ bsize - off % bsize := by omega
      rw [← released] at grown stored same spent
      refine (@ih ip₁ (poke dst tot m (fun j => ((obs d₃).view addr).byte (off % bsize + j))) (tot + m) (off + m) d₃
        grown.wf (by omega)).mono ?_ ?_
      · rintro ⟨dst',ip₂⟩ d' ⟨⟨grown',kept,still⟩,copied⟩
        dsimp only at grown' kept still copied ⊢
        refine ⟨⟨grown.trans grown' wf.bitmap_ne,fun roots => ?_,fun mapped => ?_⟩,?_⟩
        · have first : ip₁ = ip := root (roots off (Nat.le_refl _) (by omega))
          rw [first] at kept
          exact kept (fun x lower upper => roots x (by omega) (by omega))
        · obtain ⟨first,first'⟩ := same (mapped off (Nat.le_refl _) (by omega))
          rw [first,first'] at still
          exact still (fun x lower upper => mapped x (by omega) (by omega))
        · rw [copied,show n - tot = m + (n - (tot + m)) by omega]
          refine poke_poke _ _ _ _ _ _ _ (fun j bound => ?_) (fun j _ => ?_)
          · rw [← grown.content_eq,content_round short stored present bound]
          · rw [grown.content_eq,Nat.add_assoc]
      · rintro e ⟨x,lower,upper,missing⟩
        exact ⟨x,by omega,by omega,grown.toEvolved.missing spent (round_next count lower (by omega)) lower missing⟩
    · refine .of_ok (readLoop_done fs (fuel + 1) ip dst off d more)
        ⟨⟨.refl wf,fun _ => rfl,fun _ => ⟨rfl,rfl⟩⟩,?_⟩
      rw [show n - tot = 0 by omega,poke_nothing]

private theorem writeLoop_done (fs : Mount) (fuel : Nat) (ip : Inode) (src : Nat → UInt8) {tot n : Nat} (off : Nat)
    (d : Dev) (done : ¬tot < n) : writeLoop fs fuel ip src tot off n d = .ok (ip,d) := by
  cases fuel <;> rw [writeLoop,if_neg done] <;> rfl

def Overwritten (ip ip' : Inode) (o o' : Obs) (off len : Nat) (src : Nat → UInt8) : Prop :=
  off + len ≤ nearBlocks * bsize → ∀ x < nearBlocks * bsize,
    content ip' o' x = if off ≤ x ∧ x < off + len then src (x - off) else content ip o x

theorem Overwritten.trans {ip₁ : Inode} {o₁ : Obs} {off a b : Nat} {f g src : Nat → UInt8}
    (first : Overwritten ip ip₁ o o₁ off a f) (second : Overwritten ip₁ ip' o₁ o' (off + a) b g)
    (early : ∀ j < a, f j = src j) (late : ∀ j < b, g j = src (a + j)) :
    Overwritten ip ip' o o' off (a + b) src := by
  intro near x inside
  rw [second (by omega) x inside,first (by omega) x inside]
  by_cases behind : off + a ≤ x ∧ x < off + a + b
  · rw [if_pos behind,if_pos (by omega),late _ (by omega)]
    congr 1
    omega
  · rw [if_neg behind]
    by_cases before : off ≤ x ∧ x < off + a
    · rw [if_pos before,if_pos (by omega),early _ (by omega)]
    · rw [if_neg before,if_neg (by omega)]

private theorem write_round {addr : Blockno} {off m : Nat} {src : Nat → UInt8} (wf : Wf fs driverDepth ip o)
    (positive : 0 < m) (short : m ≤ bsize - off % bsize) (stored : addr = ptr ip o (driverSlot (off / bsize)))
    (present : addr ≠ 0) :
    Overwritten ip ip o (o.write addr ((o.view addr).patch (off % bsize) m src)) off m src := by
  intro near x inside
  have low : off % bsize < bsize := Nat.mod_lt _ (by decide)
  have bound : off / bsize < nearBlocks := Nat.div_lt_of_lt_mul (by rw [Nat.mul_comm]; omega)
  have bound' : x / bsize < nearBlocks := Nat.div_lt_of_lt_mul (by rw [Nat.mul_comm]; omega)
  subst stored
  rw [content_write_leaf wf bound present _ bound']
  by_cases here : x / bsize = off / bsize
  · have low' : x % bsize < bsize := Nat.mod_lt _ (by decide)
    rw [if_pos here,Bytes.byte_patch _ _ _ _ _ low']
    have range : (off % bsize ≤ x % bsize ∧ x % bsize < off % bsize + m) ↔ off ≤ x ∧ x < off + m := by
      simp only [bsize] at here short ⊢
      omega
    simp only [range]
    by_cases hit : off ≤ x ∧ x < off + m
    · rw [if_pos hit,if_pos hit]
      congr 1
      simp only [bsize] at here ⊢
      omega
    · rw [if_neg hit,if_neg hit,content,here,if_neg present]
  · have miss : ¬(off ≤ x ∧ x < off + m) := by
      simp only [bsize] at here short ⊢
      omega
    rw [if_neg here,if_neg miss]

structure Wrote (fs : Mount) (ip ip' : Inode) (o o' : Obs) (off len : Nat) (src : Nat → UInt8) : Prop where
  evolved : Evolved fs driverDepth ip ip' o o'
  overwritten : Overwritten ip ip' o o' off len src
  mapped : ∀ x, off ≤ x → x < off + len → ptr ip' o' (driverSlot (x / bsize)) ≠ 0
  root_kept : (∀ x, off ≤ x → x < off + len → ip.addrs (driverSlot (x / bsize)).root ≠ 0) → ip' = ip

theorem writeLoop_meets (careful : Careful fs.recycle) (fuel : Nat) {ip : Inode} {src : Nat → UInt8}
    {tot off n : Nat} {d : Dev} (wf : Wf fs driverDepth ip (obs d)) (enough : n - tot ≤ fuel) :
    Meets (writeLoop fs fuel ip src tot off n) d
      (fun ip' d' => Wrote fs ip ip' (obs d) (obs d') off (n - tot) (fun j => src (tot + j)))
      (fun _ => ∃ x, off ≤ x ∧ x < off + (n - tot) ∧ Missing fs ip (obs d) off x) := by
  have nothing (len : Nat) (none : len = 0) {ip : Inode} {o : Obs} {off : Nat} {src : Nat → UInt8} :
      Overwritten ip ip o o off len src := by
    intro _ x _
    rw [none,if_neg (by omega)]
  induction fuel generalizing ip tot off d with
  | zero =>
    exact .of_ok (writeLoop_done fs 0 ip src off d (by omega))
      ⟨.refl wf,nothing _ (by omega),fun x lower upper => by omega,fun _ => rfl⟩
  | succ fuel ih =>
    by_cases more : tot < n
    · rw [writeLoop,if_pos more]
      refine ((bmap_returns careful (fun _ => Nat.le_refl _) wf (off / bsize)).excuse
        (fun _ failed => ⟨off,Nat.le_refl _,by omega,failed.imp_left (fun full => ⟨full.1,by omega⟩)⟩)).bind ?_
      rintro ⟨addr,ip₁⟩ d₁ ⟨grown,stored,present,root,_,spent⟩
      dsimp only at grown stored present root spent ⊢
      obtain ⟨d₂,ran₂,locked⟩ := bread_run (b := addr) (careful d₁) (grown.wf.idle _)
      have view : (obs d₂).view addr = (obs d₁).view addr := by rw [locked]; rfl
      refine .step ran₂ (.step (bdata_run (by simp [locked,Obs.lock])) ?_)
      rw [view]
      generalize count : min (n - tot) (bsize - off % bsize) = m
      generalize block : ((obs d₁).view addr).patch (off % bsize) m (fun j => src (tot + j)) = data
      obtain ⟨d₃,ran₃,put₃⟩ := bset_run (d := d₂) (b := addr) (by simp [locked,Obs.lock]) data
      obtain ⟨d₄,ran₄,flushed⟩ := bwrite_run (d := d₃) (b := addr) (by simp [put₃,locked,Obs.lock,Obs.set])
      obtain ⟨d₅,ran₅,released⟩ := brelse_run (d := d₄) (b := addr)
        (by simp [flushed,put₃,locked,Obs.lock,Obs.set,Obs.flush])
      rw [flushed,put₃,locked,Obs.write_locked _ _ _ (grown.wf.idle _)] at released
      refine .step ran₃ (.step ran₄ (.step ran₅ ?_))
      have low : off % bsize < bsize := Nat.mod_lt _ (by decide)
      have short : m ≤ bsize - off % bsize := by omega
      have round : Overwritten ip₁ ip₁ (obs d₁) _ off m (fun j => src (tot + j)) :=
        write_round grown.wf (by omega) short stored present
      rw [block,← released] at round
      have changed : Evolved fs driverDepth ip₁ ip₁ (obs d₁) (obs d₅) := by
        rw [released,stored]
        exact evolved_write_leaf grown.wf (driverSlot_leaf _) (stored ▸ present) data
      have plain := grown.wf.plain _ (driverSlot_leaf (off / bsize)).within (stored ▸ present)
      rw [← stored] at plain
      simp only [Reserved,not_or] at plain
      have left : room fs (obs d₅) ip.inum = room fs (obs d₁) ip.inum := by
        rw [released]
        exact room_write plain.1 (by rw [← grown.inum_eq]; exact plain.2.1) data
      rw [← left] at spent
      have both := grown.toEvolved.trans changed wf.bitmap_ne
      refine (@ih ip₁ (tot + m) (off + m) d₅ changed.wf (by omega)).mono ?_ ?_
      · rintro ip₂ d' ⟨evolved,written,mapped,kept⟩
        refine ⟨both.trans evolved wf.bitmap_ne,?_,?_,?_⟩
        · rw [show n - tot = m + (n - (tot + m)) by omega]
          refine Overwritten.trans (fun near x inside => ?_) written (fun j _ => rfl) (fun j _ => ?_)
          · rw [round near x inside,grown.content_eq]
          · rw [Nat.add_assoc]
        · intro x lower upper
          by_cases later : off + m ≤ x
          · exact mapped x later (by omega)
          · have same := (round_block short (show x - off < m by omega)).1
            rw [show off + (x - off) = x by omega] at same
            have leaf := driverSlot_leaf (off / bsize)
            have there : ptr ip₁ (obs d₅) (driverSlot (off / bsize)) ≠ 0 := by
              rw [changed.keeps _ leaf.within (stored ▸ present),← stored]
              exact present
            rw [same,evolved.keeps _ leaf.within there]
            exact there
        · intro roots
          have same : ip₁ = ip := root (roots off (Nat.le_refl _) (by omega))
          rw [same] at kept
          exact kept (fun x lower upper => roots x (by omega) (by omega))
      · rintro e ⟨x,lower,upper,missing⟩
        exact ⟨x,by omega,by omega,both.missing spent (round_next count lower (by omega)) lower missing⟩
    · exact .of_ok (writeLoop_done fs (fuel + 1) ip src off d more)
        ⟨.refl wf,nothing _ (by omega),fun x lower upper => by omega,fun _ => rfl⟩

end

end Xv6Ext2.Ext2
