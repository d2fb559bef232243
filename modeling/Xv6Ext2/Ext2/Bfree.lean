import Mathlib
import Xv6Ext2.Ext2.BlockGroups

/-! `ext2_bfree`, and when it gives back what `ext2_balloc` took. It looks for the bit of a block in the
bitmap of the group the block lies in, at the block's place in the group less the number of the block that
holds the bitmap. -/
namespace Xv6Ext2.Ext2
open Lib Bio Function

/-- The part of `ext2_bfree` that has the bitmap. -/
def clearIn (bitmap : Blockno) (index : Nat) : K Unit := do
  let bmap ← bdata bitmap
  if index / 8 < bsize then
    if bit bmap.byte index = false then fault (.panic "freeing free block")
    else
      bset bitmap (bmap.clearBit index)
      bwrite bitmap
  else fault .outOfBounds

def bfree (fs : Mount) (b : Blockno) : K Unit := do
  let bg := b.toNat / fs.exs.blocksPerGroup.toNat
  let index := b % fs.exs.blocksPerGroup
  bread fs.recycle 1
  let gd ← descIn (← bdata 1) bg
  bread fs.recycle gd.blockBitmap
  clearIn gd.blockBitmap (index - gd.blockBitmap).toNat
  brelse gd.blockBitmap
  brelse 1

/-- The group in whose bitmap `ext2_bfree` looks for block `b`. -/
def homeOf (fs : Mount) (b : Blockno) : Nat := b.toNat / fs.exs.blocksPerGroup.toNat

/-- The block and the bit that `ext2_bfree` clears for `b`. -/
def clearedBlock (fs : Mount) (o : Obs) (b : Blockno) : Blockno := (desc o (homeOf fs b)).blockBitmap

def clearedBit (fs : Mount) (o : Obs) (b : Blockno) : Nat :=
  (b % fs.exs.blocksPerGroup - clearedBlock fs o b).toNat

section

variable {fs : Mount} {d : Dev}

theorem clearIn_meets (bitmap : Blockno) (index : Nat) (held : (obs d).held bitmap = true) :
    Meets (clearIn bitmap index) d
      (fun _ d' => index < 8 * bsize ∧ bit ((obs d).view bitmap).byte index = true ∧
        obs d' = ((obs d).set bitmap (((obs d).view bitmap).clearBit index)).flush bitmap)
      (fun _ => 8 * bsize ≤ index ∨ bit ((obs d).view bitmap).byte index = false) := by
  rw [clearIn]
  refine .step (bdata_run held) ?_
  split_ifs with inside clear
  · exact .of_error rfl (.inr clear)
  · obtain ⟨d₁,ran₁,stored⟩ := bset_run held (((obs d).view bitmap).clearBit index)
    obtain ⟨d₂,ran₂,written⟩ := bwrite_run (d := d₁) (b := bitmap) (by simp [stored,Obs.set,held])
    refine .step ran₁ (.of_ok ran₂ ⟨by omega,by simpa using clear,?_⟩)
    rw [written,stored]
  · exact .of_error rfl (.inl (by omega))

theorem bfree_meets (fs : Mount) (b : Blockno) (d : Dev) (idle : (obs d).held 1 = false)
    (stable : Careful fs.recycle ∨ (obs d).view 1 = (obs d).disk 1) :
    Meets (bfree fs b) d
      (fun _ d' => homeOf fs b < 64 ∧ clearedBlock fs (obs d) b ≠ 1 ∧ clearedBit fs (obs d) b < 8 * bsize ∧
        ∃ o, Drift fs.recycle (obs d) o ∧
          bit (o.view (clearedBlock fs (obs d) b)).byte (clearedBit fs (obs d) b) = true ∧
          obs d' = o.write (clearedBlock fs (obs d) b)
            ((o.view (clearedBlock fs (obs d) b)).clearBit (clearedBit fs (obs d) b)))
      (fun _ => 64 ≤ homeOf fs b ∨ clearedBlock fs (obs d) b = 1 ∨ (obs d).held (clearedBlock fs (obs d) b) = true ∨
        8 * bsize ≤ clearedBit fs (obs d) b ∨ ∃ o, Drift fs.recycle (obs d) o ∧
          bit (o.view (clearedBlock fs (obs d) b)).byte (clearedBit fs (obs d) b) = false) := by
  unfold bfree
  obtain ⟨d₁,o₁,ran₁,drift₁,locked₁⟩ := bread_drift fs.recycle idle
  refine .step ran₁ (.step (bdata_run (by simp [locked₁,Obs.lock])) ?_)
  by_cases group : homeOf fs b < 64
  · have descView : (obs d₁).view 1 = (obs d).view 1 := by rw [locked₁]; exact drift₁.view_eq stable
    have found : descIn ((obs d₁).view 1) (homeOf fs b) d₁ = .ok (desc (obs d) (homeOf fs b),d₁) := by
      rw [descIn,if_pos (by simp only [bsize]; omega),descView]
      rfl
    refine .step found ?_
    change Meets (bread fs.recycle (clearedBlock fs (obs d) b) >>= _) d₁ _ _
    by_cases apart : clearedBlock fs (obs d) b = 1
    · have held : (obs d₁).held (clearedBlock fs (obs d) b) = true := by simp [apart,locked₁,Obs.lock]
      exact .stop (bread_held fs.recycle held) (.inr (.inl apart))
    have kept : (obs d₁).held (clearedBlock fs (obs d) b) = (obs d).held (clearedBlock fs (obs d) b) := by
      simp [locked₁,Obs.lock,update_of_ne apart,drift₁.held]
    by_cases busy : (obs d).held (clearedBlock fs (obs d) b) = true
    · exact .stop (bread_held fs.recycle (kept.trans busy)) (.inr (.inr (.inl busy)))
    rw [Bool.not_eq_true] at busy
    obtain ⟨d₂,o₂,ran₂,drift₂,locked₂⟩ := bread_drift (d := d₁) (b := clearedBlock fs (obs d) b) fs.recycle (kept.trans busy)
    rw [locked₁] at drift₂
    obtain ⟨o,drift,rfl⟩ := drift₂.of_lock
    have both := drift₁.trans drift
    have view : (obs d₂).view (clearedBlock fs (obs d) b) = o.view (clearedBlock fs (obs d) b) := by rw [locked₂]; rfl
    refine .step ran₂ (((clearIn_meets (d := d₂) (clearedBlock fs (obs d) b) (clearedBit fs (obs d) b)
      (by simp [locked₂,Obs.lock])).excuse ?_).bind ?_)
    · intro e stopped
      rw [view] at stopped
      exact .inr (.inr (.inr (stopped.imp_right fun clear => ⟨o,both,clear⟩)))
    · rintro _ d₃ ⟨inside,set,result⟩
      rw [view] at set result
      rw [locked₂,Obs.flush_set_lock] at result
      obtain ⟨d₄,ran₄,released₄⟩ := brelse_run (d := d₃) (b := clearedBlock fs (obs d) b) (by simp [result,Obs.lock])
      obtain ⟨d₅,ran₅,released₅⟩ := brelse_run (d := d₄) (b := 1) (by
        simp [released₄,result,Obs.lock,Obs.unlock,Obs.write,update_of_ne (Ne.symm apart)])
      refine .step ran₄ (.of_ok ran₅ ⟨group,apart,inside,o,both,set,?_⟩)
      rw [← both.held] at busy idle
      rw [released₅,released₄,result,Obs.unlock_lock _ _ (by
        simpa [Obs.lock,Obs.write,update_of_ne apart] using busy)]
      simp only [Obs.unlock,Obs.lock,Obs.write,update_idem]
      rw [← idle,update_eq_self]
  · refine .stop (e := .outOfBounds) ?_ (.inl (by omega))
    change descIn _ (homeOf fs b) d₁ = _
    rw [descIn,if_neg (by simp only [bsize]; omega)]
    rfl

end

def bitmapAt (o : Obs) (g : Nat) : Blockno := (desc o g).blockBitmap

/-- The descriptors of `n` groups are in block 1. The bitmaps are in blocks of their own, and blocks 0 and 1 hold
the superblock and the descriptors. -/
structure Layout (n : Nat) (o : Obs) : Prop where
  descriptors : n ≤ 64
  apart : ∀ g < n, ∀ h < n, bitmapAt o g = bitmapAt o h → g = h
  behind : ∀ g < n, bitmapAt o g ≠ 0 ∧ bitmapAt o g ≠ 1

/-- Nobody holds a buffer, and the buffers of the descriptors and the bitmaps hold what the disk holds: the driver
writes them whenever it changes them. -/
structure Ready (n : Nat) (o : Obs) : Prop where
  idle : ∀ b, o.held b = false
  desc : o.view 1 = o.disk 1
  bitmaps : ∀ g < n, o.view (bitmapAt o g) = o.disk (bitmapAt o g)

/-- `ext2_bfree(b)` returns in state `d'`, and the bitmaps are then what they are in `d`. -/
def Undoes (fs : Mount) (n : Nat) (d : Dev) (b : Blockno) (d' : Dev) : Prop :=
  ∃ d'', bfree fs b d' = .ok ((),d'') ∧
    ∀ g < n, (obs d'').view (bitmapAt (obs d) g) = (obs d).view (bitmapAt (obs d) g) ∧
      (obs d'').disk (bitmapAt (obs d) g) = (obs d).disk (bitmapAt (obs d) g)

/-- The block that stands for the first clear bit of the bitmap of group 0 lies in group 0, and is neither the
block of the descriptors nor a bitmap with a bit set. -/
def Counted (fs : Mount) (n : Nat) (o : Obs) : Prop :=
  ∃ z, FirstClear (o.view (bitmapAt o 0)) (scanLimit fs) z ∧
    (bitmapAt o 0 + UInt32.ofNat z).toNat < fs.exs.blocksPerGroup.toNat ∧ bitmapAt o 0 + UInt32.ofNat z ≠ 1 ∧
    ∀ g < n, bitmapAt o g = bitmapAt o 0 + UInt32.ofNat z → o.view (bitmapAt o g) = Bytes.zero bsize

section

variable {fs : Mount} {inum : UInt32} {n : Nat} {d d' : Dev} {b : Blockno}

theorem FirstClear.unique {bmap : Block} {limit z z' : Nat} (first : FirstClear bmap limit z) (first' : FirstClear bmap limit z') :
    z = z' := le_antisymm (first.le first'.clear) (first'.le first.clear)

theorem balloc_ready (ready : Ready n (obs d)) (group : groupNo fs inum < n) (ran : balloc fs inum d = .ok (b,d')) :
    ∃ z o, 0 < z ∧ FirstClear ((obs d).view (bitmapAt (obs d) (groupNo fs inum))) (scanLimit fs) z ∧
      b = bitmapAt (obs d) (groupNo fs inum) + UInt32.ofNat z ∧ Drift fs.recycle (obs d) o ∧
      obs d' = (o.write (bitmapAt (obs d) (groupNo fs inum))
        (((obs d).view (bitmapAt (obs d) (groupNo fs inum))).setBit z)).write b (Bytes.zero bsize) := by
  have meets := balloc_meets fs inum d (ready.idle 1) (fun _ => ready.idle _) (fun _ _ _ _ => ready.idle _) (.inr ready.desc)
    (fun _ => .inr (ready.bitmaps _ group))
  exact (meets.result ran).2

theorem allocated_view {o : Obs} {m : Blockno} {z : Nat} (drift : Drift fs.recycle (obs d) o)
    (result : obs d' = (o.write m (((obs d).view m).setBit z)).write b (Bytes.zero bsize)) {x : Blockno}
    (synced : (obs d).view x = (obs d).disk x) :
    (obs d').view x = (if x = b then Bytes.zero bsize else if x = m then ((obs d).view m).setBit z else (obs d).view x) ∧
    (obs d').disk x = (obs d').view x := by
  rw [result]
  simp only [Obs.write,update_apply]
  split_ifs
  · exact ⟨rfl,rfl⟩
  · exact ⟨rfl,rfl⟩
  · have view := drift.view_eq (.inr synced)
    exact ⟨view,by rw [drift.disk,view,synced]⟩

theorem FirstClear.geometry {bmap : Block} {z : Nat} (first : FirstClear bmap (scanLimit fs) z) : 0 < fs.exs.blocksPerGroup.toNat := by
  have scanned := first.scanned
  rw [scanLimit,UInt32.toNat_mul] at scanned
  by_contra zero
  rw [Nat.eq_zero_of_not_pos zero] at scanned
  simp at scanned

theorem bitmapAt_allocated {o : Obs} {m : Blockno} {z : Nat} (drift : Drift fs.recycle (obs d) o)
    (result : obs d' = (o.write m (((obs d).view m).setBit z)).write b (Bytes.zero bsize))
    (synced : (obs d).view 1 = (obs d).disk 1) (other : (1 : Blockno) ≠ b) (behind : (1 : Blockno) ≠ m) (g : Nat) :
    bitmapAt (obs d') g = bitmapAt (obs d) g := by
  rw [bitmapAt,desc,(allocated_view drift result synced).1,if_neg other,if_neg behind]
  rfl

theorem counted_of_undoes (layout : Layout n (obs d)) (ready : Ready n (obs d)) (group : groupNo fs inum < n)
    (ran : balloc fs inum d = .ok (b,d')) (undoes : Undoes fs n d b d') : groupNo fs inum = 0 ∧ Counted fs n (obs d) := by
  obtain ⟨z,o,positive,first,target,drift,result⟩ := balloc_ready ready group ran
  obtain ⟨d'',freed,same⟩ := undoes
  generalize place : bitmapAt (obs d) (groupNo fs inum) = m at *
  have other : m ≠ b := by
    rw [target]
    exact (shifted_ne m z positive first.inside).symm
  have seen {x : Blockno} := allocated_view drift result (x := x)
  have one := seen ready.desc
  have idle (x : Blockno) : (obs d').held x = false := by
    rw [result]
    exact (congrFun drift.held x).trans (ready.idle x)
  obtain ⟨home,apart,inside,o',drift',-,after⟩ := (bfree_meets fs b d' (idle 1) (.inr one.2.symm)).result freed
  have synced : (obs d).view m = (obs d).disk m := place ▸ ready.bitmaps _ group
  have marked := seen synced
  rw [if_neg other,if_pos rfl] at marked
  have disk : (obs d'').disk m = (obs d).view m := by
    rw [synced,← place]
    exact (same _ group).2
  -- the bit that was set is in the block that is cleared
  have block : clearedBlock fs (obs d') b = m := by
    by_contra different
    rw [after] at disk
    simp only [Obs.write] at disk
    rw [update_of_ne (Ne.symm different),drift'.disk,marked.2,marked.1] at disk
    have set := congrArg (fun f => bit f.byte z) disk
    simp only [bit_setBit _ _ _ first.inside,first.clear] at set
    simp at set
  have index : clearedBit fs (obs d') b = z := by
    by_contra different
    rw [after,block] at disk
    simp only [Obs.write,update_self] at disk
    rw [drift'.view_eq (.inr marked.2.symm),marked.1] at disk
    have set := congrArg (fun f => bit f.byte z) disk
    simp only [bit_clearBit _ _ _ inside,bit_setBit _ _ _ first.inside,first.clear] at set
    simp [Ne.symm different] at set
  -- the remainder is the whole number, so the block lies in group 0
  have whole : b % fs.exs.blocksPerGroup = b := by
    have bits : b % fs.exs.blocksPerGroup - m = UInt32.ofNat z := by
      rw [← index,clearedBit,block,UInt32.ofNat_toNat]
    rw [target] at bits ⊢
    exact sub_eq_iff_eq_add'.mp bits
  have small : b.toNat < fs.exs.blocksPerGroup.toNat := by
    rw [← whole,UInt32.toNat_mod]
    exact Nat.mod_lt _ first.geometry
  have zero : homeOf fs b = 0 := Nat.div_eq_of_lt small
  have behind := layout.behind _ group
  rw [place] at behind
  have plain : b ≠ 1 := by
    rintro rfl
    rw [if_pos rfl] at one
    have lost : clearedBlock fs (obs d') 1 = 0 := by
      rw [clearedBlock,desc,one.1]
      exact Bytes.u32_zeroed _ _
    exact behind.1 (block.symm.trans lost)
  have first_group : groupNo fs inum = 0 := by
    refine layout.apart _ group 0 (by omega) ?_
    rw [place,← block,← bitmapAt_allocated drift result ready.desc plain.symm behind.2.symm,clearedBlock,zero]
    rfl
  rw [first_group] at place
  refine ⟨first_group,z,place ▸ first,?_,?_,fun g bound taken => ?_⟩
  · rw [place,← target]
    exact small
  · rw [place,← target]
    exact plain
  · rw [place,← target] at taken
    have lost := (same g bound).2
    rw [after,block,taken] at lost
    simp only [Obs.write,update_of_ne other.symm,drift'.disk] at lost
    have wiped := seen (ready.bitmaps g bound)
    rw [taken] at wiped
    rw [wiped.2,wiped.1,if_pos rfl,← taken] at lost
    rw [ready.bitmaps g bound,lost]

theorem undoes_of_counted (layout : Layout n (obs d)) (ready : Ready n (obs d)) (group : groupNo fs inum < n)
    (ran : balloc fs inum d = .ok (b,d')) (zero : groupNo fs inum = 0) (counted : Counted fs n (obs d)) :
    Undoes fs n d b d' := by
  obtain ⟨z,o,positive,first,target,drift,result⟩ := balloc_ready ready group ran
  have behind := layout.behind _ group
  have synced := ready.bitmaps _ group
  rw [zero] at first target result behind synced
  obtain ⟨z',first',small,plain,spared⟩ := counted
  obtain rfl := first.unique first'
  rw [← target] at small plain spared
  generalize place : bitmapAt (obs d) 0 = m at *
  have other : m ≠ b := by
    rw [target]
    exact (shifted_ne m z positive first.inside).symm
  have seen {x : Blockno} := allocated_view drift result (x := x)
  have idle (x : Blockno) : (obs d').held x = false := by
    rw [result]
    exact (congrFun drift.held x).trans (ready.idle x)
  have home : homeOf fs b = 0 := Nat.div_eq_of_lt small
  have block : clearedBlock fs (obs d') b = m := by
    rw [clearedBlock,home,← place]
    exact bitmapAt_allocated drift result ready.desc plain.symm behind.2.symm 0
  have index : clearedBit fs (obs d') b = z := by
    have inside := first.inside
    simp only [bsize] at inside
    have whole : b % fs.exs.blocksPerGroup = b := by
      rw [← UInt32.toNat_inj,UInt32.toNat_mod,Nat.mod_eq_of_lt small]
    have bits : b - m = UInt32.ofNat z := by rw [target,add_sub_cancel_left]
    rw [clearedBit,block,whole,bits,UInt32.toNat_ofNat',Nat.mod_eq_of_lt (by omega)]
  have marked := seen synced
  rw [if_neg other,if_pos rfl] at marked
  obtain ⟨⟨⟩,d'',freed,-,-,-,o',drift',-,after⟩ :=
    (bfree_meets fs b d' (idle 1) (.inr (seen ready.desc).2.symm)).returns (by
      rw [home,block,index]
      rintro e (far | one | busy | outside | ⟨o',drift',clear⟩)
      · omega
      · exact behind.2 one
      · exact absurd ((idle m).symm.trans busy) Bool.false_ne_true
      · exact absurd first.inside (by omega)
      · rw [drift'.view_eq (.inr marked.2.symm),marked.1,bit_setBit _ _ _ first.inside] at clear
        simp at clear)
  rw [block,index,drift'.view_eq (.inr marked.2.symm),marked.1,Bytes.clearBit_setBit first.inside first.clear] at after
  refine ⟨d'',freed,fun g bound => ?_⟩
  have before := ready.bitmaps g bound
  have kept := seen before
  have view := drift'.view_eq (.inr kept.2.symm)
  have spare := spared g bound
  rw [after]
  simp only [Obs.write]
  generalize bitmapAt (obs d) g = x at *
  by_cases here : x = m
  · subst here
    rw [update_self,update_self]
    exact ⟨rfl,synced⟩
  · rw [update_of_ne here,update_of_ne here,view,drift'.disk,kept.2,kept.1,if_neg here]
    split_ifs with taken
    · rw [← before,spare taken]
      exact ⟨rfl,rfl⟩
    · exact ⟨rfl,before⟩

end

/-- `ext2_bfree` undoes `ext2_balloc` exactly in group 0 and for a block that lies in it. -/
theorem bfree_undoes_balloc_iff (fs : Mount) (n : Nat) (inum : UInt32) (d d' : Dev) (b : Blockno) (layout : Layout n (obs d))
    (ready : Ready n (obs d)) (group : groupNo fs inum < n) (ran : balloc fs inum d = .ok (b,d')) :
    Undoes fs n d b d' ↔ groupNo fs inum = 0 ∧ Counted fs n (obs d) :=
  ⟨counted_of_undoes layout ready group ran,fun both => undoes_of_counted layout ready group ran both.1 both.2⟩

theorem populated_layout : Layout 3 (obs (cold populated)) := by
  have bitmaps : bitmapAt (obs (cold populated)) 0 = 2 ∧ bitmapAt (obs (cold populated)) 1 = 10 ∧
      bitmapAt (obs (cold populated)) 2 = 16 := by decide +kernel
  refine ⟨by decide,fun g bound h bound' same => ?_,fun g bound => ?_⟩
  · interval_cases g <;> interval_cases h <;> simp [bitmaps] at same ⊢
  · interval_cases g <;> simp [bitmaps]

theorem populated_ready : Ready 3 (obs (cold populated)) := ⟨fun _ => rfl,rfl,fun _ _ => rfl⟩

/-- In the first group of `populated`, block 7 is taken and given back. -/
theorem bfree_undoes_in_first_group : ∃ d', balloc populatedMount 1 (cold populated) = .ok (7,d') ∧
    Undoes populatedMount 3 (cold populated) 7 d' := by
  have seen : probe (balloc populatedMount 1) (cold populated) (fun b _ => some b) = some 7 := by decide +kernel
  obtain ⟨b,d',ran,returned⟩ := probe_eq_some seen
  obtain rfl := Option.some.inj returned
  have bitmap : bitmapAt (obs (cold populated)) 0 = 2 := by decide +kernel
  have first : FirstClear ((obs (cold populated)).view 2) (scanLimit populatedMount) 5 :=
    ⟨by decide,by decide,by decide +kernel,by decide +kernel⟩
  have counted : Counted populatedMount 3 (obs (cold populated)) := by
    refine ⟨5,by rwa [bitmap],by rw [bitmap]; decide,by rw [bitmap]; decide,fun g bound taken => ?_⟩
    rw [bitmap] at taken
    have other : ∀ g < 3, bitmapAt (obs (cold populated)) g ≠ 2 + UInt32.ofNat 5 := by decide +kernel
    exact absurd taken (other g bound)
  exact ⟨d',ran,(bfree_undoes_balloc_iff populatedMount 3 1 (cold populated) d' 7 populated_layout populated_ready
    (by decide) ran).mpr ⟨by decide,counted⟩⟩

/-- In the second group block 15 is taken, and `ext2_bfree(15)` looks for bit 7 - 10 of the bitmap. -/
theorem bfree_outside_bitmap : ∃ d', balloc populatedMount 17 (cold populated) = .ok (15,d') ∧
    bfree populatedMount 15 d' = .error .outOfBounds ∧ ¬Undoes populatedMount 3 (cold populated) 15 d' := by
  have seen : probe (balloc populatedMount 17) (cold populated)
      (fun b d' => (stopped (bfree populatedMount b) d').map (b,·)) = some (15,.outOfBounds) := by decide +kernel
  obtain ⟨b,d',ran,failed⟩ := probe_eq_some seen
  obtain ⟨e,reason,both⟩ := Option.map_eq_some_iff.mp failed
  cases both
  have error := stopped_eq_some reason
  refine ⟨d',ran,error,?_⟩
  rintro ⟨d'',freed,-⟩
  rw [error] at freed
  cases freed

end Xv6Ext2.Ext2
