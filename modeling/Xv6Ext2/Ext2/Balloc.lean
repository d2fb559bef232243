import Xv6Ext2.Bio

/-! Block allocation of the ext2 driver: the superblock copy `exs`, the group descriptors in block 1,
`zeroth_bit` and `ext2_balloc`, with what one allocation does to the device. -/
namespace Xv6Ext2.Ext2
open Lib Bio Function

/-- The fields of `struct ext2_superblock` that the driver or the format uses. -/
structure Superblock where
  blocksCount : UInt32
  firstDataBlock : UInt32
  logBlockSize : UInt32
  blocksPerGroup : UInt32
  inodesPerGroup : UInt32
  inodeSize : UInt16
  featureRoCompat : UInt32
  deriving DecidableEq

def superblock (f : Nat → UInt8) : Superblock where
  blocksCount := u32 f 4
  firstDataBlock := u32 f 20
  logBlockSize := u32 f 24
  blocksPerGroup := u32 f 32
  inodesPerGroup := u32 f 40
  inodeSize := u16 f 88
  featureRoCompat := u32 f 100

structure GroupDesc where
  blockBitmap : Blockno
  inodeBitmap : Blockno
  inodeTable : Blockno
  deriving DecidableEq

def groupDesc (f : Nat → UInt8) (off : Nat) : GroupDesc := ⟨u32 f off,u32 f (off + 4),u32 f (off + 8)⟩

/-- What the driver reads and never changes. The driver divides by the inodes of a group and by the
inodes of a block, so a mount has a superblock in which neither is zero. -/
structure Mount where
  exs : Superblock
  recycle : Dev → Blockno → Bool
  /-- `devsw[major].read` and `.write` of the devices that have them, for a buffer and a byte count. -/
  devRead : Nat → Option ((Nat → UInt8) → UInt32 → UInt32 × (Nat → UInt8))
  devWrite : Nat → Option ((Nat → UInt8) → UInt32 → UInt32)
  inodesPerGroup_pos : 0 < exs.inodesPerGroup.toNat
  inodeSize_ge : 128 ≤ exs.inodeSize.toNat
  inodeSize_le : exs.inodeSize.toNat ≤ bsize

def readsb (recycle : Dev → Blockno → Bool) : K Superblock := do
  bread recycle 0
  let data ← bdata 0
  brelse 0
  return superblock (fun i => data.byte (1024 + i))

/-- `GN(inum, exs)` -/
def groupNo (fs : Mount) (inum : UInt32) : Nat := (inum - 1).toNat / fs.exs.inodesPerGroup.toNat

/-- `memmove(&gd, bp->data + group_no * sizeof(gd), sizeof(gd))` -/
def descIn (data : Block) (group : Nat) : K GroupDesc :=
  if 32 * group + 32 ≤ bsize then pure (groupDesc data.byte (32 * group)) else fault .outOfBounds

/-- The loop of `zeroth_bit` from bit `b` on, with `k` rounds left. -/
def zerothBitFrom (bmap : Block) : Nat → Nat → K (Option Nat)
  | 0, _ => pure none
  | k + 1, b =>
    if b / 8 < bsize then
      if bit bmap.byte b then zerothBitFrom bmap k (b + 1) else pure (some b)
    else fault .outOfBounds

/-- `zeroth_bit`; storing the bit is left to the caller, who holds the buffer. -/
def zerothBit (fs : Mount) (bmap : Block) : K (Option Nat) :=
  zerothBitFrom bmap (fs.exs.blocksPerGroup * 8).toNat 0

def bzero (fs : Mount) (bno : Blockno) : K Unit := do
  bread fs.recycle bno
  bset bno (Bytes.zero bsize)
  bwrite bno
  brelse bno

/-- The part of `ext2_balloc` after the descriptor is read, for the bitmap in block `b`. -/
def allocateIn (fs : Mount) (b : Blockno) : K Blockno := do
  bread fs.recycle b
  let bmap ← bdata b
  match ← zerothBit fs bmap with
  | some zbit =>
    bset b (bmap.setBit zbit)
    bwrite b
    bzero fs (b + UInt32.ofNat zbit)
    brelse b
    return b + UInt32.ofNat zbit
  | none =>
    brelse b
    fault (.panic "balloc: out of blocks")

def balloc (fs : Mount) (inum : UInt32) : K Blockno := do
  bread fs.recycle 1
  let gd ← descIn (← bdata 1) (groupNo fs inum)
  brelse 1
  allocateIn fs gd.blockBitmap

def scanLimit (fs : Mount) : Nat := (fs.exs.blocksPerGroup * 8).toNat

/-- Bit `z` is the first clear bit of a bitmap and the scan of `limit` bits reaches it. -/
structure FirstClear (bmap : Block) (limit z : Nat) : Prop where
  scanned : z < limit
  inside : z < 8 * bsize
  clear : bit bmap.byte z = false
  least : ∀ j < z, bit bmap.byte j = true

def Full (bmap : Block) (limit : Nat) : Prop := ∀ i < limit, i < 8 * bsize → bit bmap.byte i = true

theorem FirstClear.not_full {bmap : Block} {limit z : Nat} (first : FirstClear bmap limit z) :
    ¬Full bmap limit := by
  intro full
  have used := full z first.scanned first.inside
  rw [first.clear] at used
  contradiction

theorem FirstClear.le {bmap : Block} {limit z i : Nat} (first : FirstClear bmap limit z)
    (clear : bit bmap.byte i = false) : z ≤ i := by
  by_contra later
  have used := first.least i (by omega)
  rw [clear] at used
  contradiction

/-- The scan finds the first clear bit; in a full bitmap it ends with none, or it leaves the block if there are more rounds
than bits. -/
theorem zerothBitFrom_cases (bmap : Block) (k b : Nat) (d : Dev) (before : ∀ j < b, bit bmap.byte j = true) (start : b ≤ 8 * bsize) :
    (∃ z, FirstClear bmap (b + k) z ∧ zerothBitFrom bmap k b d = .ok (some z,d)) ∨
      (Full bmap (b + k) ∧ (b + k ≤ 8 * bsize ∧ zerothBitFrom bmap k b d = .ok (none,d) ∨
        8 * bsize < b + k ∧ zerothBitFrom bmap k b d = .error .outOfBounds)) := by
  induction k generalizing b with
  | zero => exact .inr ⟨fun i scanned _ => before i scanned,.inl ⟨start,rfl⟩⟩
  | succ k ih =>
    by_cases inside : b / 8 < bsize
    · cases used : bit bmap.byte b with
      | false =>
        refine .inl ⟨b,⟨by omega,by omega,used,before⟩,?_⟩
        simp [zerothBitFrom,inside,used]
      | true =>
        have rest := ih (b + 1) (fun j bound => by
          rcases Nat.lt_succ_iff_lt_or_eq.mp bound with earlier | rfl
          · exact before j earlier
          · exact used) (by omega)
        simpa only [zerothBitFrom,inside,used,if_true,Nat.add_assoc,Nat.add_comm 1 k] using rest
    · refine .inr ⟨fun i _ bound => before i (by omega),.inr ⟨by omega,?_⟩⟩
      simp [zerothBitFrom,inside]

theorem zerothBit_cases (fs : Mount) (bmap : Block) (d : Dev) :
    (∃ z, FirstClear bmap (scanLimit fs) z ∧ zerothBit fs bmap d = .ok (some z,d)) ∨
      (Full bmap (scanLimit fs) ∧ (scanLimit fs ≤ 8 * bsize ∧ zerothBit fs bmap d = .ok (none,d) ∨
        8 * bsize < scanLimit fs ∧ zerothBit fs bmap d = .error .outOfBounds)) := by
  have cases := zerothBitFrom_cases bmap (scanLimit fs) 0 d (fun j bound => absurd bound (by omega)) (Nat.zero_le _)
  rw [Nat.zero_add] at cases
  exact cases

def desc (o : Obs) (g : Nat) : GroupDesc := groupDesc (o.view 1).byte (32 * g)

def bitmapOf (fs : Mount) (o : Obs) (inum : UInt32) : Blockno := (desc o (groupNo fs inum)).blockBitmap

theorem bzero_drift (fs : Mount) {d : Dev} {b : Blockno} (free : (obs d).held b = false) :
    ∃ d' o, bzero fs b d = .ok ((),d') ∧ Drift fs.recycle (obs d) o ∧
      obs d' = o.write b (Bytes.zero bsize) := by
  obtain ⟨d₁,o,ran₁,drift,locked⟩ := bread_drift fs.recycle free
  obtain ⟨d₂,ran₂,stored⟩ := bset_run (d := d₁) (b := b) (by simp [locked,Obs.lock]) (Bytes.zero bsize)
  obtain ⟨d₃,ran₃,written⟩ := bwrite_run (d := d₂) (b := b) (by simp [stored,locked,Obs.lock,Obs.set])
  obtain ⟨d₄,ran₄,released⟩ := brelse_run (d := d₃) (b := b)
    (by simp [written,stored,locked,Obs.lock,Obs.set,Obs.flush])
  refine ⟨d₄,o,?_,drift,?_⟩
  · rw [bzero,bind_ok ran₁,bind_ok ran₂,bind_ok ran₃,ran₄]
  · rw [released,written,stored,locked,Obs.write_locked _ _ _ (by rw [drift.held]; exact free)]

theorem shifted_ne (b : Blockno) (z : Nat) (positive : 0 < z) (inside : z < 8 * bsize) :
    b + UInt32.ofNat z ≠ b := by
  intro same
  have zero : UInt32.ofNat z = 0 := by simpa using same
  have value := congrArg UInt32.toNat zero
  simp only [bsize] at inside
  rw [UInt32.toNat_ofNat',Nat.mod_eq_of_lt (by omega)] at value
  exact absurd value (by simp; omega)

theorem allocateIn_meets (fs : Mount) (b : Blockno) (d : Dev) (free : (obs d).held b = false)
    (target_free : ∀ z, 0 < z → FirstClear ((obs d).view b) (scanLimit fs) z →
      (obs d).held (b + UInt32.ofNat z) = false)
    (stable : Careful fs.recycle ∨ (obs d).view b = (obs d).disk b) :
    Meets (allocateIn fs b) d
      (fun r d' => ∃ z o, 0 < z ∧ FirstClear ((obs d).view b) (scanLimit fs) z ∧
        r = b + UInt32.ofNat z ∧ Drift fs.recycle (obs d) o ∧
        obs d' = (o.write b (((obs d).view b).setBit z)).write r (Bytes.zero bsize))
      (fun _ => Full ((obs d).view b) (scanLimit fs) ∨ FirstClear ((obs d).view b) (scanLimit fs) 0) := by
  unfold allocateIn
  obtain ⟨d₁,o₁,ran₁,drift₁,locked₁⟩ := bread_drift fs.recycle free
  have view₁ : (obs d₁).view b = (obs d).view b := by rw [locked₁]; exact drift₁.view_eq stable
  refine .step ran₁ (.step (bdata_run (by simp [locked₁,Obs.lock])) ?_)
  rw [view₁]
  rcases zerothBit_cases fs ((obs d).view b) d₁ with ⟨z,first,scan⟩ | ⟨full,⟨-,scan⟩ | ⟨-,scan⟩⟩
  · refine .step scan ?_
    obtain ⟨d₂,ran₂,stored⟩ := bset_run (d := d₁) (b := b) (by simp [locked₁,Obs.lock])
      (((obs d).view b).setBit z)
    obtain ⟨d₃,ran₃,written⟩ := bwrite_run (d := d₂) (b := b) (by simp [stored,locked₁,Obs.lock,Obs.set])
    rw [stored,locked₁,Obs.flush_set_lock] at written
    refine .step ran₂ (.step ran₃ ?_)
    rcases Nat.eq_zero_or_pos z with rfl | positive
    · have held : (obs d₃).held (b + UInt32.ofNat 0) = true := by simp [written,Obs.lock]
      exact .stop (bind_error (bread_held fs.recycle held) _) (.inr first)
    · have other := shifted_ne b z positive first.inside
      have unlocked : (obs d₃).held (b + UInt32.ofNat z) = false := by
        simpa [written,Obs.lock,Obs.write,update_of_ne other,drift₁.held] using
          target_free z positive first
      obtain ⟨d₄,o₄,ran₄,drift₄,zeroed⟩ := bzero_drift fs unlocked
      rw [written] at drift₄
      obtain ⟨o,drift,rfl⟩ := drift₄.of_write
      obtain ⟨d₅,ran₅,released⟩ := brelse_run (d := d₄) (b := b) (by simp [zeroed,Obs.lock,Obs.write])
      refine .step ran₄ (.step ran₅ (.pure_intro ⟨z,o,positive,first,rfl,drift₁.trans drift,?_⟩))
      have unheld : o.held b = false := by rw [drift.held,drift₁.held]; exact free
      rw [released,zeroed]
      simp only [Obs.unlock,Obs.lock,Obs.write,update_idem]
      rw [← unheld,update_eq_self]
  · obtain ⟨d₂,ran₂,-⟩ := brelse_run (d := d₁) (b := b) (by simp [locked₁,Obs.lock])
    exact .step scan (.step ran₂ (.of_error rfl (.inl full)))
  · exact .stop scan (.inl full)

/-- One allocation marks the first clear bit `z` of the bitmap in block `b`, zeroes block `b + z`
and returns it; with `z = 0` it would zero the bitmap whose buffer it holds. -/
theorem balloc_meets (fs : Mount) (inum : UInt32) (d : Dev) (desc_free : (obs d).held 1 = false)
    (bitmap_free : groupNo fs inum < 64 → (obs d).held (bitmapOf fs (obs d) inum) = false)
    (target_free : groupNo fs inum < 64 → ∀ z, 0 < z →
      FirstClear ((obs d).view (bitmapOf fs (obs d) inum)) (scanLimit fs) z →
      (obs d).held (bitmapOf fs (obs d) inum + UInt32.ofNat z) = false)
    (desc_stable : Careful fs.recycle ∨ (obs d).view 1 = (obs d).disk 1)
    (bitmap_stable : groupNo fs inum < 64 → Careful fs.recycle ∨
      (obs d).view (bitmapOf fs (obs d) inum) = (obs d).disk (bitmapOf fs (obs d) inum)) :
    Meets (balloc fs inum) d
      (fun r d' => groupNo fs inum < 64 ∧ ∃ z o, 0 < z ∧
        FirstClear ((obs d).view (bitmapOf fs (obs d) inum)) (scanLimit fs) z ∧
        r = bitmapOf fs (obs d) inum + UInt32.ofNat z ∧ Drift fs.recycle (obs d) o ∧
        obs d' = (o.write (bitmapOf fs (obs d) inum)
          (((obs d).view (bitmapOf fs (obs d) inum)).setBit z)).write r (Bytes.zero bsize))
      (fun _ => 64 ≤ groupNo fs inum ∨ Full ((obs d).view (bitmapOf fs (obs d) inum)) (scanLimit fs) ∨
        FirstClear ((obs d).view (bitmapOf fs (obs d) inum)) (scanLimit fs) 0) := by
  unfold balloc
  obtain ⟨d₁,o₁,ran₁,drift₁,locked₁⟩ := bread_drift fs.recycle desc_free
  refine .step ran₁ (.step (bdata_run (by simp [locked₁,Obs.lock])) ?_)
  by_cases group : groupNo fs inum < 64
  · have fits : 32 * groupNo fs inum + 32 ≤ bsize := by simp only [bsize]; omega
    have descView : (obs d₁).view 1 = (obs d).view 1 := by rw [locked₁]; exact drift₁.view_eq desc_stable
    have found : descIn ((obs d₁).view 1) (groupNo fs inum) d₁ =
        .ok (desc (obs d) (groupNo fs inum),d₁) := by
      rw [descIn,if_pos fits,descView]
      rfl
    refine .step found ?_
    obtain ⟨d₂,ran₂,released₂⟩ := brelse_run (d := d₁) (b := 1) (by simp [locked₁,Obs.lock])
    rw [locked₁,Obs.unlock_lock _ _ (by rw [drift₁.held]; exact desc_free)] at released₂
    refine .step ran₂ ?_
    rw [← released₂] at drift₁
    have view := drift₁.view_eq (bitmap_stable group)
    refine (allocateIn_meets fs (bitmapOf fs (obs d) inum) d₂
      (by rw [drift₁.held]; exact bitmap_free group) (by rw [view,drift₁.held]; exact target_free group)
      (by rw [view,drift₁.disk]; exact bitmap_stable group)).mono ?_ ?_
    · rintro r d' ⟨z,o,positive,first,target,drift,result⟩
      rw [view] at first result
      exact ⟨group,z,o,positive,first,target,drift₁.trans drift,result⟩
    · intro e stopped
      rw [view] at stopped
      exact .inr stopped
  · refine .stop (e := .outOfBounds) ?_ (.inl (by omega))
    rw [descIn,if_neg (by simp only [bsize]; omega)]
    rfl

end Xv6Ext2.Ext2
