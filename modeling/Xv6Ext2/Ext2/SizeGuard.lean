import Xv6Ext2.Lib.Faults
import Xv6Ext2.Ext2.BlockTree
import Xv6Ext2.Ext2.FileCalls

/-! The size test of `ext2_writei` and the range of `ext2_bmap`. `EXT2_MAXFILE * BSIZE` is computed in 32 bits. -/
namespace Xv6Ext2.Ext2
open Lib Bio Function

/-- The panic of `ext2_bmap`. -/
def outOfRange : Fault := .panic "bmap: out of range"

section

variable (fs : Mount)

theorem bread_avoids (b : Blockno) : Avoids outOfRange (bread fs.recycle b) := by
  intro d stopped
  rw [bread] at stopped
  split at stopped
  · split_ifs at stopped
    exact absurd (Except.error.inj stopped) (by decide)
  · cases stopped

theorem held_avoids {α : Type} {own : Fault} (different : own ≠ outOfRange) (b : Blockno) (run : Buf → Dev → α × Dev) :
    Avoids outOfRange (fun d : Dev => match d.cache b with
      | some buf => if buf.locked then .ok (run buf d) else .error own
      | none => .error own) := by
  intro d stopped
  dsimp only at stopped
  split at stopped
  · split_ifs at stopped
    exact different (Except.error.inj stopped)
  · exact different (Except.error.inj stopped)

theorem bdata_avoids (b : Blockno) : Avoids outOfRange (bdata b) :=
  held_avoids (show Fault.dangling ≠ outOfRange by decide) b (fun buf d => (buf.data,d))

theorem bset_avoids (b : Blockno) (data : Block) : Avoids outOfRange (bset b data) :=
  held_avoids (show Fault.dangling ≠ outOfRange by decide) b (fun buf d => ((),put d b {buf with data := data}))

theorem bwrite_avoids (b : Blockno) : Avoids outOfRange (bwrite b) :=
  held_avoids (show Fault.panic "bwrite" ≠ outOfRange by decide) b
    (fun buf d => ((),{put d b {buf with dirty := false} with disk := update d.disk b buf.data}))

theorem brelse_avoids (b : Blockno) : Avoids outOfRange (brelse b) :=
  held_avoids (show Fault.panic "brelse" ≠ outOfRange by decide) b (fun buf d => ((),put d b {buf with locked := false}))

theorem descIn_avoids (data : Block) (group : Nat) : Avoids outOfRange (descIn data group) := by
  apply Avoids.ite
  · intro _
    exact avoids_pure _
  · intro _
    exact avoids_fault (by decide)

theorem zerothBit_avoids (bmap : Block) : Avoids outOfRange (zerothBit fs bmap) := by
  intro d
  rcases zerothBit_cases fs bmap d with ⟨z,-,ran⟩ | ⟨-,⟨-,ran⟩ | ⟨-,ran⟩⟩
  · simp [ran]
  · simp [ran]
  · rw [ran]
    intro stopped
    exact absurd (Except.error.inj stopped) (by decide)

theorem balloc_avoids (inum : UInt32) : Avoids outOfRange (balloc fs inum) := by
  apply (bread_avoids fs 1).bind
  intro _
  apply (bdata_avoids 1).bind
  intro data
  apply (descIn_avoids data _).bind
  intro gd
  apply (brelse_avoids 1).bind
  intro _
  apply (bread_avoids fs gd.blockBitmap).bind
  intro _
  apply (bdata_avoids gd.blockBitmap).bind
  intro bmap
  apply (zerothBit_avoids fs bmap).bind
  intro found
  cases found with
  | none =>
    apply (brelse_avoids gd.blockBitmap).bind
    intro _
    exact avoids_fault (by decide)
  | some z =>
    apply (bset_avoids gd.blockBitmap _).bind
    intro _
    apply (bwrite_avoids gd.blockBitmap).bind
    intro _
    apply Avoids.bind
    · apply (bread_avoids fs _).bind
      intro _
      apply (bset_avoids _ _).bind
      intro _
      apply (bwrite_avoids _).bind
      intro _
      exact brelse_avoids _
    · intro _
      apply (brelse_avoids gd.blockBitmap).bind
      intro _
      exact avoids_pure _

theorem rootPointer_avoids (ip : Inode) (i : Fin 15) : Avoids outOfRange (rootPointer fs ip i) := by
  apply Avoids.ite
  · intro _
    apply (balloc_avoids fs ip.inum).bind
    intro addr
    exact avoids_pure _
  · intro _
    exact avoids_pure _

theorem entryPointer_avoids (ip : Inode) (b : Blockno) (k : Nat) : Avoids outOfRange (entryPointer fs ip b k) := by
  apply Avoids.ite
  · intro _
    apply (bdata_avoids b).bind
    intro a
    apply Avoids.ite
    · intro _
      apply (balloc_avoids fs ip.inum).bind
      intro addr
      apply (bdata_avoids b).bind
      intro data
      apply (bset_avoids b _).bind
      intro _
      exact avoids_pure _
    · intro _
      exact avoids_pure _
  · intro _
    exact avoids_fault (by decide)

theorem bmap_avoids (ip : Inode) {bn : Nat} (near : bn < driverBlocks) : Avoids outOfRange (bmap fs ip bn) := by
  rw [driverBlocks] at near
  rw [bmap]
  split_ifs with direct single double triple
  · exact rootPointer_avoids fs ip _
  · apply (rootPointer_avoids fs ip 12).bind
    intro found
    apply (bread_avoids fs found.1).bind
    intro _
    apply (entryPointer_avoids fs found.2 found.1 _).bind
    intro addr
    apply (brelse_avoids found.1).bind
    intro _
    exact avoids_pure _
  · apply (rootPointer_avoids fs ip 13).bind
    intro found
    apply (bread_avoids fs found.1).bind
    intro _
    apply (entryPointer_avoids fs found.2 found.1 _).bind
    intro addr
    apply (bread_avoids fs addr).bind
    intro _
    apply (entryPointer_avoids fs found.2 found.1 _).bind
    intro addr₂
    apply (brelse_avoids addr).bind
    intro _
    apply (brelse_avoids found.1).bind
    intro _
    exact avoids_pure _
  · omega
  · omega

theorem writeLoop_avoids (fuel : Nat) (ip : Inode) (src : Nat → UInt8) (tot off n : Nat)
    (near : off + (n - tot) ≤ driverBlocks * bsize) : Avoids outOfRange (writeLoop fs fuel ip src tot off n) := by
  induction fuel generalizing ip tot off with
  | zero =>
    apply Avoids.ite
    · intro _
      exact avoids_fault (by decide)
    · intro _
      exact avoids_pure _
  | succ fuel ih =>
    apply Avoids.ite
    · intro more
      have here : off / bsize < driverBlocks := Nat.div_lt_of_lt_mul (by rw [Nat.mul_comm]; omega)
      apply (bmap_avoids fs ip here).bind
      intro found
      apply (bread_avoids fs found.1).bind
      intro _
      apply (bdata_avoids found.1).bind
      intro data
      apply (bset_avoids found.1 _).bind
      intro _
      apply (bwrite_avoids found.1).bind
      intro _
      apply (brelse_avoids found.1).bind
      intro _
      exact ih found.2 _ _ (by omega)
    · intro _
      exact avoids_pure _

theorem iupdate_avoids (ip : Inode) : Avoids outOfRange (iupdate fs ip) := by
  apply (bread_avoids fs 1).bind
  intro _
  apply (bdata_avoids 1).bind
  intro data
  apply (descIn_avoids data _).bind
  intro gd
  apply (bread_avoids fs _).bind
  intro _
  apply (bdata_avoids _).bind
  intro table
  apply (bset_avoids _ _).bind
  intro _
  apply (bwrite_avoids _).bind
  intro _
  apply (brelse_avoids 1).bind
  intro _
  exact brelse_avoids _

variable {fs} {ip : Inode} {src : Nat → UInt8} {off n : UInt32} {d : Dev}

theorem writei_small (file : ip.type ≠ .dev) (start : off.toNat ≤ ip.size.toNat) (small : off.toNat + n.toNat ≤ 537919488) :
    writei fs ip src off n d ≠ .ok ((minusOne,ip),d) ∧ writei fs ip src off n d ≠ .error outOfRange := by
  have total : (off + n).toNat = off.toNat + n.toNat := by rw [UInt32.toNat_add,Nat.mod_eq_of_lt (by omega)]
  have near : off.toNat + (n.toNat - 0) ≤ driverBlocks * bsize := by
    have bound : driverBlocks * bsize = 537944064 := by decide
    omega
  have other : n ≠ minusOne := by
    intro same
    have value : minusOne.toNat = 4294967295 := by decide
    rw [same,value] at small
    omega
  have loop := writeLoop_avoids fs n.toNat ip src 0 off.toNat n.toNat near
  rw [writei,if_neg file,if_neg,if_neg]
  · constructor
    · -- whatever is returned, it is `n`
      have length : Meets (do
          let ip ← writeLoop fs n.toNat ip src 0 off.toNat n.toNat
          if 0 < n ∧ ip.size < off + n then
            iupdate fs {ip with size := off + n}
            return (n,{ip with size := off + n})
          else return (n,ip)) d (fun r _ => r.1 = n) (fun _ => True) := by
        refine Meets.bind (m := fun _ _ => True) ?_ ?_
        · rw [Meets]
          split <;> trivial
        intro ip' d' _
        split_ifs
        · refine Meets.bind (m := fun _ _ => True) ?_ (fun _ _ _ => .pure_intro rfl)
          rw [Meets]
          split <;> trivial
        · exact .pure_intro rfl
      intro ran
      exact other (length.result ran).symm
    · refine loop.bind (fun ip' => ?_) d
      apply Avoids.ite
      · intro _
        apply (iupdate_avoids fs _).bind
        intro _
        exact avoids_pure _
      · intro _
        exact avoids_pure _
  · rw [UInt32.lt_iff_toNat_lt,maxFileBytes_toNat,total]
    omega
  · rw [UInt32.lt_iff_toNat_lt,UInt32.lt_iff_toNat_lt,total]
    omega

end

/-- For requests that do not wrap, the size test of `ext2_writei` is the range of the block tree, and what it lets
through stays within `ext2_bmap`, exactly when the request ends within 513 MB. -/
theorem writei_size_test_iff (fs : Mount) {ip : Inode} (file : ip.type ≠ .dev) (src : Nat → UInt8) {off n : UInt32}
    (start : off.toNat ≤ ip.size.toNat) (whole : off.toNat + n.toNat < 2 ^ 32) (d : Dev) :
    ((writei fs ip src off n d = .ok ((minusOne,ip),d) ↔ bsize * ext2Blocks < off.toNat + n.toNat) ∧
      writei fs ip src off n d ≠ .error outOfRange) ↔ off.toNat + n.toNat ≤ 537919488 := by
  have limit : bsize * ext2Blocks = 275415851008 := by decide
  rw [limit]
  constructor
  · intro exact
    obtain ⟨test,-⟩ := exact
    by_contra large
    have beyond := test.mp (writei_refused file src d (.inr (by rw [maxFileBytes_toNat]; omega)))
    omega
  · intro small
    obtain ⟨accepted,avoids⟩ := writei_small file start small
    refine ⟨iff_of_false accepted (by omega),avoids⟩

private def sized (size : UInt32) : Inode := {newInode 1 .file with size := size}

theorem writei_size_test_small :
    (writei stillMount (sized 0) (fun _ => 0) 0 1 (cold bare) = .ok ((minusOne,sized 0),cold bare) ↔
      bsize * ext2Blocks < (0 : UInt32).toNat + (1 : UInt32).toNat) ∧
    writei stillMount (sized 0) (fun _ => 0) 0 1 (cold bare) ≠ .error outOfRange := by
  generalize cold bare = d
  exact (writei_size_test_iff stillMount (by decide) (fun _ => 0) (by decide) (by decide) d).mpr (by decide)

/-- One byte behind the first 513 MB of a file is refused, although the block tree reaches 256 GB. -/
theorem writei_refuses_small_file :
    writei stillMount (sized 537919488) (fun _ => 0) 537919488 1 (cold bare) =
      .ok ((minusOne,sized 537919488),cold bare) ∧
    (537919488 : UInt32).toNat + (1 : UInt32).toNat ≤ bsize * ext2Blocks := by
  exact ⟨writei_refused (by decide) _ _ (.inr (by decide)),by decide⟩

end Xv6Ext2.Ext2
