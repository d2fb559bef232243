import Xv6Ext2.Fs.Volume

/-! What `balloc` does to the bitmap, which is one block. -/
namespace Xv6Ext2.Fs
open Lib Bio Log Function

def used (fs : Volume) (v : Blockno → Block) (b : Nat) : Bool := bit (v fs.sb.bmapstart).byte b

/-- What `balloc` may hand out. -/
def Free (fs : Volume) (v : Blockno → Block) (b : Blockno) : Prop :=
  b.toNat < fs.sb.size.toNat ∧ used fs v b.toNat = false

instance (fs : Volume) (v : Blockno → Block) (b : Blockno) : Decidable (Free fs v b) :=
  inferInstanceAs (Decidable (_ ∧ _))

def taken (fs : Volume) (v : Blockno → Block) (b : Blockno) : Blockno → Block :=
  update (update v fs.sb.bmapstart ((v fs.sb.bmapstart).setBit b.toNat)) b (Bytes.zero bsize)

theorem bblock_eq (fs : Volume) {b : Nat} (small : b < bpb) : bblock fs b = fs.sb.bmapstart := by
  rw [bblock,Nat.div_eq_of_lt small]
  exact UInt32.zero_add _

theorem scan_some {data : Block} {n bi : Nat} (found : scan data n = some bi) : bi < n ∧ bit data.byte bi = false := by
  have clear := List.find?_some found
  exact ⟨List.mem_range.mp (List.mem_of_find?_eq_some found),by simpa using clear⟩

theorem scan_none {data : Block} {n bi : Nat} (absent : scan data n = none) (bound : bi < n) : bit data.byte bi = true := by
  have all := List.find?_eq_none.mp absent bi (List.mem_range.mpr bound)
  simpa using all

section

variable {fs : Volume} {s : Sys} {v : Blockno → Block} {locks edits budget : Finset Blockno} {b : Blockno}
  {fail : Fault → Prop}

theorem bzero_meets (track : Track fs s v locks edits budget) (unlocked : b ∉ locks) (home : fs.sb.inodestart.toNat ≤ b.toNat)
    (room : budget.card + 2 ≤ limit fs) (spare : budget.card + locks.card < nbuf) :
    Meets (bzero fs b) s
      (fun _ s' => Track fs s' (update v b (Bytes.zero bsize)) locks edits (insert b budget)) fail := by
  refine bread_step track unlocked spare fun s₁ track₁ => ?_
  refine bset_step track₁ (Finset.mem_insert_self _ _) fun s₂ track₂ => ?_
  refine logWrite_step track₂ room home fun s₃ track₃ => ?_
  exact brelse_last track₃ unlocked (fun edited => unlocked (track.edited edited))

theorem Volume.inodestart_lt (fs : Volume) : fs.sb.inodestart.toNat < fs.sb.bmapstart.toNat := by
  rw [fs.bmapstart]
  exact Nat.lt_succ_of_le (Nat.le_add_right _ _)

theorem Volume.size_lt (fs : Volume) : fs.sb.size.toNat < bpb := by
  have := fs.size_le
  simp only [fssize,bpb,bsize] at *
  omega

theorem balloc_meets (track : Track fs s v locks edits budget) (bitmap : fs.sb.bmapstart ∉ locks)
    (listed : fs.sb.bmapstart ∈ budget) (apart : ∀ b, Free fs v b → b ∉ locks ∧ fs.sb.inodestart.toNat ≤ b.toNat)
    (room : budget.card + 2 ≤ limit fs) (spare : budget.card + locks.card < nbuf)
    (full : (∀ b, ¬Free fs v b) → fail (.panic "balloc: out of blocks")) :
    Meets (balloc fs) s (fun b s' => Free fs v b ∧ Track fs s' (taken fs v b) locks edits (insert b budget)) fail := by
  have small := fs.size_lt
  have positive : 0 < fs.sb.size.toNat := Nat.zero_lt_of_lt fs.data_pos
  have clean : fs.sb.bmapstart ∉ edits := fun edited => bitmap (track.edited edited)
  have rounds : fs.sb.size.toNat / bpb + 2 = 2 := by rw [Nat.div_eq_of_lt small]
  rw [balloc,rounds,ballocFrom,if_pos positive,bblock_eq fs (by decide : 0 < bpb),Nat.sub_zero,
    Nat.min_eq_right (Nat.le_of_lt small)]
  refine bread_step track bitmap spare fun s₁ track₁ => ?_
  refine bdata_step track₁ (Finset.mem_insert_self _ _) ?_
  split
  next bi found =>
    obtain ⟨bound,clear⟩ := scan_some found
    have value : (UInt32.ofNat (0 + bi)).toNat = bi := by
      simp only [bpb,bsize] at small
      rw [Nat.zero_add,UInt32.toNat_ofNat']
      omega
    have free : Free fs v (UInt32.ofNat (0 + bi)) := by
      rw [Free,value]
      exact ⟨bound,clear⟩
    refine bset_step track₁ (Finset.mem_insert_self _ _) fun s₂ track₂ => ?_
    refine logWrite_listed track₂ room listed fun s₃ track₃ => ?_
    refine brelse_step track₃ bitmap clean fun s₄ track₄ => ?_
    obtain ⟨unlocked,home⟩ := apart _ free
    refine (bzero_meets track₄ unlocked home room spare).bind fun _ s₅ track₅ => ?_
    refine .pure_intro ⟨free,?_⟩
    rw [taken,value]
    exact track₅
  next none =>
    refine brelse_step track₁ bitmap clean fun s₂ track₂ => ?_
    rw [ballocFrom,if_neg (by omega)]
    refine .of_error rfl (full fun b free => ?_)
    have marked := scan_none none free.1
    have clear := free.2
    rw [used,marked] at clear
    cases clear

end

section

variable {fs : Volume} {v : Blockno → Block} {b : Blockno}

theorem used_taken (ne : b ≠ fs.sb.bmapstart) (bound : b.toNat < fs.sb.size.toNat) (z : Nat) :
    used fs (taken fs v b) z = (decide (z = b.toNat) || used fs v z) := by
  have small := fs.size_lt
  rw [used,used,taken,update_of_ne ne.symm,update_self]
  exact bit_setBit _ _ _ (by simp only [bpb] at small; omega)

theorem taken_other {x : Blockno} (bitmap : x ≠ fs.sb.bmapstart) (other : x ≠ b) : taken fs v b x = v x := by
  rw [taken,update_of_ne other,update_of_ne bitmap]

theorem taken_self : taken fs v b b = Bytes.zero bsize := update_self _ _ _

end

end Xv6Ext2.Fs
