import Xv6Ext2.Ext2.Mapping

/-! The block tree of the ext2 format with its four levels, and how far `ext2_bmap` implements it. -/
namespace Xv6Ext2.Ext2
open Lib Bio

/-- The slot of block `bn`: direct, or below the single, double or triple indirect block. -/
def position (bn : Nat) : Place :=
  if h : bn < ndirBlocks then ⟨⟨bn,direct_lt h⟩,[]⟩
  else if bn - ndirBlocks < nindirect then ⟨12,[Fin.ofNat 512 (bn - ndirBlocks)]⟩
  else if bn - ndirBlocks - nindirect < nindirect * nindirect then
    let r := bn - ndirBlocks - nindirect
    ⟨13,[Fin.ofNat 512 r,Fin.ofNat 512 (r / nindirect)]⟩
  else
    let r := bn - ndirBlocks - nindirect - nindirect * nindirect
    ⟨14,[Fin.ofNat 512 r,Fin.ofNat 512 (r / nindirect),Fin.ofNat 512 (r / nindirect / nindirect)]⟩

def ext2Depth (i : Fin 15) : Nat := if i.val < ndirBlocks then 0 else i.val - 11

def ext2Blocks : Nat := ndirBlocks + nindirect + nindirect * nindirect + nindirect * nindirect * nindirect

/-- `ext2_bmap` called for each of a list of block numbers. -/
def bmapAll (fs : Mount) (ip : Inode) : List Nat → K (List Blockno × Inode)
  | [] => pure ([],ip)
  | bn :: bns => do
    let (addr,ip) ← bmap fs ip bn
    let (addrs,ip) ← bmapAll fs ip bns
    return (addr :: addrs,ip)

/-- The calls return what then stands at the positions of the block numbers, calling again changes
nothing, and no two blocks of the file nor a block and an indirect block are the same. -/
def ImplementsTree (fs : Mount) (ip : Inode) (d : Dev) (bns : List Nat) : Prop :=
  ∃ addrs ip' d', bmapAll fs ip bns d = .ok ((addrs,ip'),d') ∧
    addrs = bns.map (fun bn => ptr ip' (obs d') (position bn)) ∧
    (∀ bn ∈ bns, ptr ip' (obs d') (position bn) ≠ 0 ∧
      ∃ d'', bmap fs ip' bn d' = .ok ((ptr ip' (obs d') (position bn),ip'),d'') ∧ obs d'' = obs d') ∧
    (∀ bn ∈ bns, ∀ other < ext2Blocks, other ≠ bn →
      ptr ip' (obs d') (position other) ≠ ptr ip' (obs d') (position bn)) ∧
    (∀ bn ∈ bns, ∀ σ : Place, σ.Inner ext2Depth → ptr ip' (obs d') σ ≠ ptr ip' (obs d') (position bn))

theorem driverDepth_le (i : Fin 15) : driverDepth i ≤ ext2Depth i := by
  unfold driverDepth ext2Depth ndirBlocks
  split_ifs <;> omega

theorem position_leaf (bn : Nat) : Slot.Leaf ext2Depth (position bn) := by
  unfold position
  split_ifs with direct
  · simp [Slot.Leaf,ext2Depth,direct]
  · rfl
  · rfl
  · rfl

theorem driverSlot_within (bn : Nat) : Slot.Within ext2Depth (driverSlot bn) := by
  unfold driverSlot
  split_ifs
  · exact Nat.zero_le _
  · exact show 1 ≤ ext2Depth 12 by decide
  · exact show 1 ≤ ext2Depth 13 by decide

private def blockNumber (σ : Place) : Nat :=
  match σ.path with
  | [] => σ.root.val
  | [a] => ndirBlocks + a.val
  | [a,b] => ndirBlocks + 512 + 512 * b.val + a.val
  | [a,b,c] => ndirBlocks + 512 + 262144 + 262144 * c.val + 512 * b.val + a.val
  | _ => 0

private theorem blockNumber_position {bn : Nat} (inside : bn < ext2Blocks) : blockNumber (position bn) = bn := by
  rw [ext2Blocks,nindirect_eq] at inside
  rw [position,nindirect_eq]
  split_ifs with direct single double
  · rfl
  · simp only [blockNumber,Fin.val_ofNat]
    omega
  · simp only [blockNumber,Fin.val_ofNat]
    omega
  · simp only [blockNumber,Fin.val_ofNat]
    omega

theorem position_injective {bn other : Nat} (inside : bn < ext2Blocks) (inside' : other < ext2Blocks)
    (same : position bn = position other) : bn = other := by
  rw [← blockNumber_position inside,same,blockNumber_position inside']

theorem driverSlot_eq_position_iff (bn : Nat) : driverSlot bn = position bn ↔ bn < ndirBlocks + nindirect := by
  rw [driverSlot,position]
  split_ifs with direct single double
  · simp only [true_iff]
    omega
  · simp only [true_iff]
    omega
  · simp only [Slot.mk.injEq,List.cons.injEq,reduceCtorEq,and_false,false_iff]
    omega
  · simp only [Slot.mk.injEq,List.cons.injEq,reduceCtorEq,and_false,false_iff]
    omega

section

variable {fs : Mount} {ip : Inode} {d : Dev}

theorem bmapAll_meets (careful : Careful fs.recycle) (bns : List Nat) {ip : Inode} {d : Dev}
    (wf : Wf fs ext2Depth ip (obs d)) :
    Meets (bmapAll fs ip bns) d
      (fun r d' => Grown fs ext2Depth ip r.2 (obs d) (obs d') ∧
        r.1 = bns.map (fun bn => ptr r.2 (obs d') (driverSlot bn)) ∧
        ∀ bn ∈ bns, ptr r.2 (obs d') (driverSlot bn) ≠ 0)
      (fun _ => room fs (obs d) ip.inum < 2 * bns.length ∨ ∃ bn ∈ bns, driverBlocks ≤ bn) := by
  induction bns generalizing ip d with
  | nil => exact .pure_intro ⟨.refl wf,rfl,fun _ member => by simp at member⟩
  | cons bn bns ih =>
    rcases Nat.lt_or_ge bn driverBlocks with near | far
    · refine ((bmap_meets careful driverDepth_le wf near rfl).excuse ?_).bind ?_
      · rintro e ⟨_,full⟩
        left
        rw [List.length_cons]
        omega
      · rintro ⟨addr,ip₁⟩ d₁ mapped
        have inum : ip₁.inum = ip.inum := mapped.grown.inum_eq
        refine ((ih mapped.grown.wf).excuse ?_).bind ?_
        · rintro e (full | ⟨other,member,far⟩)
          · left
            have spent := mapped.room
            dsimp only at full
            rw [inum] at full
            rw [List.length_cons]
            omega
          · exact .inr ⟨other,by simp [member],far⟩
        · rintro ⟨addrs,ip₂⟩ d₂ ⟨grown,stored,present⟩
          dsimp only at grown stored present
          have kept : ptr ip₂ (obs d₂) (driverSlot bn) = addr := by
            have before : ptr ip₁ (obs d₁) (driverSlot bn) = addr := mapped.stored.symm
            rw [grown.keeps _ (driverSlot_within bn) (by rw [before]; exact mapped.present),before]
          refine .pure_intro ⟨mapped.grown.trans grown wf.bitmap_ne,?_,?_⟩
          · simp only [List.map_cons,kept,stored]
          · intro other member
            rcases List.mem_cons.mp member with rfl | later
            · dsimp only
              rw [kept]
              exact mapped.present
            · exact present other later
    · refine ((bmap_never careful driverDepth_le wf far rfl).excuse ?_).bind ?_
      · intro e _
        exact .inr ⟨bn,by simp,far⟩
      · intro _ _ post
        exact post.elim

private theorem tree_of_near (careful : Careful fs.recycle) (wf : Wf fs ext2Depth ip (obs d)) {bns : List Nat}
    (enough : 2 * bns.length ≤ room fs (obs d) ip.inum) (near : ∀ bn ∈ bns, bn < ndirBlocks + nindirect) :
    ImplementsTree fs ip d bns := by
  have small (bn : Nat) (member : bn ∈ bns) : bn < driverBlocks := by
    have bound := near bn member
    rw [driverBlocks]
    omega
  have inside (bn : Nat) (member : bn ∈ bns) : bn < ext2Blocks := by
    have bound := small bn member
    rw [driverBlocks] at bound
    rw [ext2Blocks]
    omega
  have slot (bn : Nat) (member : bn ∈ bns) : driverSlot bn = position bn :=
    (driverSlot_eq_position_iff bn).mpr (near bn member)
  obtain ⟨⟨addrs,ip'⟩,d',ran,grown,stored,present⟩ := (bmapAll_meets careful bns wf).returns (by
    rintro e (full | ⟨bn,member,far⟩)
    · omega
    · exact absurd (small bn member) (by omega))
  dsimp only at grown stored present
  refine ⟨addrs,ip',d',ran,?_,?_,?_,?_⟩
  · rw [stored]
    exact List.map_congr_left (fun bn member => by rw [slot bn member])
  · intro bn member
    have there := present bn member
    rw [← slot bn member]
    refine ⟨there,?_⟩
    have again := bmap_meets careful driverDepth_le grown.wf (small bn member) rfl
    obtain ⟨⟨addr,ip''⟩,d'',ran',mapped⟩ := again.returns (fun e failed => there failed.1)
    obtain ⟨same,settled⟩ := mapped.same there
    have value := mapped.stored
    dsimp only at same value
    rw [same,settled] at value
    exact ⟨d'',by rw [ran',same,value],settled⟩
  · intro bn member other bound differs equal
    have there := present bn member
    rw [slot bn member,← equal] at there
    have slots := grown.wf.distinct _ _ (position_leaf other).within (position_leaf bn).within there equal
    exact differs (position_injective bound (inside bn member) slots)
  · intro bn member σ inner equal
    have there := present bn member
    rw [slot bn member,← equal] at there
    have slots := grown.wf.distinct σ _ inner.within (position_leaf bn).within there equal
    rw [slots] at inner
    exact absurd (position_leaf bn) (Nat.ne_of_lt inner)

private theorem near_of_tree (careful : Careful fs.recycle) (wf : Wf fs ext2Depth ip (obs d)) {bns : List Nat}
    (implements : ImplementsTree fs ip d bns) (bn : Nat) (member : bn ∈ bns) : bn < ndirBlocks + nindirect := by
  obtain ⟨addrs,ip',d',ran,positions,-⟩ := implements
  obtain ⟨grown,stored,present⟩ := (bmapAll_meets careful bns wf).result ran
  dsimp only at grown stored present
  rw [positions] at stored
  have equal : ptr ip' (obs d') (position bn) = ptr ip' (obs d') (driverSlot bn) := List.map_inj_left.mp stored bn member
  have there := present bn member
  have slots := grown.wf.distinct _ _ (driverSlot_within bn) (position_leaf bn).within there equal.symm
  exact (driverSlot_eq_position_iff bn).mp slots

end

/-- `ext2_bmap` implements the ext2 block tree exactly for the direct and single-indirect blocks. -/
theorem bmap_implements_tree_iff (fs : Mount) (ip : Inode) (d : Dev) (bns : List Nat)
    (careful : Careful fs.recycle) (wf : Wf fs ext2Depth ip (obs d))
    (enough : 2 * bns.length ≤ room fs (obs d) ip.inum) :
    ImplementsTree fs ip d bns ↔ ∀ bn ∈ bns, bn < ndirBlocks + nindirect :=
  ⟨fun implements => near_of_tree careful wf implements,fun near => tree_of_near careful wf enough near⟩

theorem bmap_implements_tree_near :
    ImplementsTree stillMount (newInode 1 .file) (cold bare) [0,12,523] := by
  refine (bmap_implements_tree_iff _ _ _ _ never_careful (bare_wf _ _ _) ?_).mpr (by decide)
  exact card_le_room 1 {1,2,3,4,5,6} (by decide +kernel)

/-- Blocks 524 and 525 of one file get the same disk block, which is their own indirect block. -/
theorem bmap_doubles_block :
    Wf stillMount ext2Depth (newInode 1 .file) (obs (cold bare)) ∧
      ¬ImplementsTree stillMount (newInode 1 .file) (cold bare) [524,525] := by
  refine ⟨bare_wf _ _ _,?_⟩
  rintro ⟨addrs,ip',d',ran,positions,-,apart,-⟩
  have returned : ((bmapAll stillMount (newInode 1 .file) [524,525] (cold bare)).toOption.map
      fun r => r.1.1) = some [6,6] := by decide +kernel
  rw [ran] at returned
  obtain rfl : addrs = [6,6] := Option.some.inj returned
  simp only [List.map_cons,List.map_nil,List.cons.injEq,and_true] at positions
  exact apart 524 (by simp) 525 (by decide) (by decide) (positions.2.symm.trans positions.1)

end Xv6Ext2.Ext2
