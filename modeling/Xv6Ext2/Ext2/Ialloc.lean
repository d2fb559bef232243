import Xv6Ext2.Ext2.Bfree
import Xv6Ext2.Ext2.InodeTable

/-! Inode allocation of the ext2 driver: `ext2_ialloc` and `ext2_ifree`, which bits of the inode bitmaps and which bytes
of the inode tables one call changes. -/
namespace Xv6Ext2.Ext2
open Lib Bio Function

/-- Reading the descriptor of group `i`, as `ext2_ialloc` and `ext2_ifree` begin. -/
def readDesc (fs : Mount) (i : Nat) : K GroupDesc := do
  bread fs.recycle 1
  let gd ← descIn (← bdata 1) i
  brelse 1
  return gd

/-- `sizeof(struct ext2_inode)` -/
def inodeBytes : Nat := 128

/-- The block in which `ext2_ialloc` initialises the inode with index `index`. -/
def slotBlock (gd : GroupDesc) (index : Nat) : Blockno := gd.inodeTable + UInt32.ofNat (index / (bsize / inodeBytes))

def slotOffset (index : Nat) : Nat := index % (bsize / inodeBytes) * inodeBytes

/-- The record that `ext2_ialloc` makes. -/
def freshRecord (type : FileType) : Bytes 128 :=
  match type with
  | .dir => (Bytes.zero 128).setU16 0 0o040000
  | .file => (Bytes.zero 128).setU16 0 0o100000
  | _ => Bytes.zero 128

/-- A round of the loop of `ext2_ialloc` once it has the descriptor: the block of the bitmap, and the number of the inode
if there is one. -/
def allocateInode (fs : Mount) (type : FileType) (i : Nat) (gd : GroupDesc) : K (Blockno × Option UInt32) := do
  bread fs.recycle gd.inodeBitmap
  let bmap ← bdata gd.inodeBitmap
  match ← zerothBit fs bmap with
  | none =>
    -- `gd_bp` is released once more
    brelse 1
    brelse gd.inodeBitmap
    return (gd.inodeBitmap,none)
  | some index =>
    bset gd.inodeBitmap (bmap.setBit index)
    let blocknum := slotBlock gd index
    bread fs.recycle blocknum
    bset blocknum ((← bdata blocknum).patch (slotOffset index) inodeBytes (freshRecord type).byte)
    bwrite blocknum
    bwrite gd.inodeBitmap
    brelse blocknum
    brelse gd.inodeBitmap
    return (gd.inodeBitmap,some (UInt32.ofNat i * fs.exs.inodesPerGroup + UInt32.ofNat index + 1))

def iallocIn (fs : Mount) (type : FileType) (i : Nat) : K (Blockno × Option UInt32) := do
  let gd ← readDesc fs i
  allocateInode fs type i gd

def iallocFrom (fs : Mount) (type : FileType) : Nat → Nat → K UInt32
  | 0, i => do
    match ← iallocIn fs type i with
    | (_,some inum) => return inum
    | (bp,none) =>
      brelse bp
      fault (.panic "ialloc: no inodes")
  | k + 1, i => do
    match ← iallocIn fs type i with
    | (_,some inum) => return inum
    | (_,none) => iallocFrom fs type k (i + 1)

/-- `ext2_ialloc` up to its `iget`: the number of the inode. -/
def ialloc (fs : Mount) (type : FileType) : K UInt32 :=
  iallocFrom fs type (fs.exs.blocksCount / fs.exs.blocksPerGroup).toNat 0

/-- `ext2_ifree` -/
def ifree (fs : Mount) (inum : UInt32) : K Unit := do
  let gd ← readDesc fs (groupNo fs inum)
  bread fs.recycle gd.inodeBitmap
  let bmap ← bdata gd.inodeBitmap
  let index := indexOf fs inum
  if index / 8 < bsize then
    if bit bmap.byte index = false then fault (.panic "freeing free inode")
    else
      bset gd.inodeBitmap (bmap.clearBit index)
      bwrite gd.inodeBitmap
      brelse gd.inodeBitmap
  else fault .outOfBounds

def inodeBitmapAt (o : Obs) (g : Nat) : Blockno := (desc o g).inodeBitmap

def inodeBit (o : Obs) (g i : Nat) : Bool := bit (o.view (inodeBitmapAt o g)).byte i

/-- The inode bitmaps of the `n` groups of a file system are blocks of their own, apart from the tables, and mark what is
behind the inodes of a group. Recycling one of their buffers loses nothing. -/
structure InodeMaps (fs : Mount) (n : Nat) (o : Obs) : Prop extends Tables fs n o where
  positive : 0 < n
  capacity : fs.exs.inodesPerGroup.toNat ≤ 8 * bsize
  own : ∀ g < n, ∀ h < n, inodeBitmapAt o g = inodeBitmapAt o h → g = h
  beyond : ∀ g < n, inodeBitmapAt o g ≠ 1
  outside : ∀ g < n, ∀ h < n, ¬InTable fs o h (inodeBitmapAt o g)
  padding : ∀ g < n, ∀ i < 8 * bsize, fs.exs.inodesPerGroup.toNat ≤ i → inodeBit o g i = true
  synced : ∀ g < n, Careful fs.recycle ∨ o.view (inodeBitmapAt o g) = o.disk (inodeBitmapAt o g)

section

variable {fs : Mount} {type : FileType} {n g z : Nat} {d d' : Dev} {o : Obs} {inum : UInt32}

theorem readDesc_run (small : g < 64) (idle : (obs d).held 1 = false)
    (stable : Careful fs.recycle ∨ (obs d).view 1 = (obs d).disk 1) :
    ∃ d', readDesc fs g d = .ok (desc (obs d) g,d') ∧ Drift fs.recycle (obs d) (obs d') := by
  obtain ⟨d₁,o₁,ran₁,drift₁,locked₁⟩ := bread_drift (b := 1) fs.recycle idle
  have view : (obs d₁).view 1 = (obs d).view 1 := by
    rw [locked₁]
    exact drift₁.view_eq stable
  obtain ⟨d₂,ran₂,released₂⟩ := brelse_run (d := d₁) (b := 1) (by simp [locked₁,Obs.lock])
  rw [locked₁,Obs.unlock_lock _ _ (by rw [drift₁.held]; exact idle)] at released₂
  refine ⟨d₂,?_,?_⟩
  · rw [readDesc,bind_ok ran₁,bind_ok (bdata_run (by simp [locked₁,Obs.lock])),bind_ok (descIn_run small _),bind_ok ran₂,view]
    rfl
  · rw [released₂]
    exact drift₁

theorem InodeMaps.first_lt (maps : InodeMaps fs n o) (small : g < n)
    (first : FirstClear (o.view (inodeBitmapAt o g)) (scanLimit fs) z) : z < fs.exs.inodesPerGroup.toNat := by
  by_contra behind
  have marked := maps.padding g small z first.inside (Nat.le_of_not_lt behind)
  rw [inodeBit,first.clear] at marked
  contradiction

theorem inodesPerBlock_le (fs : Mount) : inodesPerBlock fs ≤ bsize / inodeBytes :=
  Nat.div_le_div_left fs.inodeSize_ge (by decide)

theorem inTable_slotBlock (inside : z < fs.exs.inodesPerGroup.toNat) : InTable fs o g (slotBlock (desc o g) z) := by
  refine ⟨z / (bsize / inodeBytes) * inodesPerBlock fs,?_,?_⟩
  · calc z / (bsize / inodeBytes) * inodesPerBlock fs
        ≤ z / (bsize / inodeBytes) * (bsize / inodeBytes) := Nat.mul_le_mul_left _ (inodesPerBlock_le fs)
      _ ≤ z := Nat.div_mul_le_self _ _
      _ < _ := inside
  · rw [Nat.mul_div_cancel _ (inodesPerBlock_pos fs)]
    rfl

def initialised (type : FileType) (gd : GroupDesc) (bmap : Block) (z : Nat) (o : Obs) : Obs :=
  (o.write gd.inodeBitmap (bmap.setBit z)).write (slotBlock gd z)
    ((o.view (slotBlock gd z)).patch (slotOffset z) inodeBytes (freshRecord type).byte)

/-- How a round ends on a full bitmap: it releases a buffer that it does not hold, unless it has left the bitmap before. -/
def afterFull (fs : Mount) : Fault := if scanLimit fs ≤ 8 * bsize then .panic "brelse" else .outOfBounds

/-- A round takes the first clear bit of the bitmap and initialises a record. With a bitmap that has none it does not
return. -/
theorem allocateInode_meets (fs : Mount) (type : FileType) (i : Nat) {gd : GroupDesc} (idle : ∀ b, (obs d).held b = false)
    (bitmap : gd.inodeBitmap ≠ 1)
    (synced : Careful fs.recycle ∨ (obs d).view gd.inodeBitmap = (obs d).disk gd.inodeBitmap)
    (apart : ∀ z, FirstClear ((obs d).view gd.inodeBitmap) (scanLimit fs) z → slotBlock gd z ≠ gd.inodeBitmap) :
    Meets (allocateInode fs type i gd) d
      (fun r d' => ∃ z o, FirstClear ((obs d).view gd.inodeBitmap) (scanLimit fs) z ∧
        r.2 = some (UInt32.ofNat i * fs.exs.inodesPerGroup + UInt32.ofNat z + 1) ∧ Drift fs.recycle (obs d) o ∧
        obs d' = initialised type gd ((obs d).view gd.inodeBitmap) z o)
      (fun e => Full ((obs d).view gd.inodeBitmap) (scanLimit fs) ∧ e = afterFull fs) := by
  unfold allocateInode
  generalize block : gd.inodeBitmap = b at *
  obtain ⟨d₁,o₁,ran₁,drift₁,locked₁⟩ := bread_drift fs.recycle (idle b)
  have view₁ : (obs d₁).view b = (obs d).view b := by
    rw [locked₁]
    exact drift₁.view_eq synced
  refine .step ran₁ (.step (bdata_run (by simp [locked₁,Obs.lock])) ?_)
  rw [view₁]
  rcases zerothBit_cases fs ((obs d).view b) d₁ with ⟨z,first,scan⟩ | ⟨full,⟨narrow,scan⟩ | ⟨wide,scan⟩⟩
  · refine .step scan ?_
    have other := apart z first
    generalize slot : slotBlock gd z = s at *
    obtain ⟨d₂,ran₂,stored⟩ := bset_run (d := d₁) (b := b) (by simp [locked₁,Obs.lock]) (((obs d).view b).setBit z)
    obtain ⟨d₃,o₃,ran₃,drift₃,locked₃⟩ := bread_drift (d := d₂) (b := s) fs.recycle (by
      simp [stored,locked₁,Obs.lock,Obs.set,update_of_ne other,drift₁.held,idle])
    rw [stored,locked₁] at drift₃
    obtain ⟨o,drift,rfl⟩ := drift₃.of_set
    have both := drift₁.trans drift
    have view₃ : (obs d₃).view s = o.view s := by
      rw [locked₃]
      simp [Obs.lock,Obs.set,update_of_ne other]
    obtain ⟨d₄,ran₄,stored₄⟩ := bset_run (d := d₃) (b := s) (by simp [locked₃,Obs.lock])
      ((o.view s).patch (slotOffset z) inodeBytes (freshRecord type).byte)
    obtain ⟨d₅,ran₅,written₅⟩ := bwrite_run (d := d₄) (b := s) (by simp [stored₄,locked₃,Obs.lock,Obs.set])
    obtain ⟨d₆,ran₆,written₆⟩ := bwrite_run (d := d₅) (b := b) (by
      simp [written₅,stored₄,locked₃,Obs.lock,Obs.set,Obs.flush,update_of_ne other.symm])
    obtain ⟨d₇,ran₇,released₇⟩ := brelse_run (d := d₆) (b := s) (by
      simp [written₆,written₅,stored₄,locked₃,Obs.lock,Obs.set,Obs.flush])
    obtain ⟨d₈,ran₈,released₈⟩ := brelse_run (d := d₇) (b := b) (by
      simp [released₇,written₆,written₅,stored₄,locked₃,Obs.lock,Obs.unlock,Obs.set,Obs.flush,update_of_ne other.symm])
    refine .step ran₂ ?_
    dsimp only
    rw [slot]
    refine .step ran₃ (.step (bdata_run (by simp [locked₃,Obs.lock])) ?_)
    rw [view₃]
    refine .step ran₄ (.step ran₅ (.step ran₆ (.step ran₇ (.step ran₈ (.pure_intro ⟨z,o,first,rfl,both,?_⟩)))))
    rw [released₈,released₇,written₆,written₅,stored₄,locked₃,initialised,slot,block]
    refine Obs.ext ?_ ?_ ?_ ?_
    · simp only [Obs.unlock,Obs.flush,Obs.set,Obs.lock,Obs.write,update_self,update_of_ne other.symm]
      exact update_comm other _ _ _
    · rfl
    · funext c
      simp only [Obs.unlock,Obs.flush,Obs.set,Obs.lock,Obs.write,update_apply]
      split_ifs <;> simp [both.held,idle]
    · exact update_comm other _ _ _
  · have unheld : (obs d₁).held 1 = false := by
      simp [locked₁,Obs.lock,update_of_ne bitmap.symm,drift₁.held,idle]
    exact .step scan (.stop (brelse_unheld unheld) ⟨full,(if_pos narrow).symm⟩)
  · exact .stop scan ⟨full,(if_neg (by omega)).symm⟩

theorem stable_drift {b : Blockno} {o' : Obs} (drift : Drift fs.recycle o o') (stable : Careful fs.recycle ∨ o.view b = o.disk b) :
    Careful fs.recycle ∨ o'.view b = o'.disk b := by
  rw [drift.view_eq stable,drift.disk]
  exact stable

theorem stable_write {b c : Blockno} {data : Block} (stable : Careful fs.recycle ∨ o.view c = o.disk c) :
    Careful fs.recycle ∨ (o.write b data).view c = (o.write b data).disk c := by
  by_cases same : c = b
  · right
    rw [same]
    simp only [Obs.write,update_self]
  · simp only [Obs.write,update_of_ne same]
    exact stable

theorem desc_congr {o' : Obs} (one : o'.view 1 = o.view 1) (g : Nat) : desc o' g = desc o g := by
  rw [desc,desc,one]

theorem inTable_congr {o' : Obs} (one : o'.view 1 = o.view 1) (g : Nat) (b : Blockno) : InTable fs o' g b ↔ InTable fs o g b := by
  rw [InTable,InTable,tableAt,tableAt,desc_congr one]

theorem inodeBitmapAt_congr {o' : Obs} (one : o'.view 1 = o.view 1) (g : Nat) : inodeBitmapAt o' g = inodeBitmapAt o g := by
  rw [inodeBitmapAt,inodeBitmapAt,desc_congr one]

theorem InodeMaps.kept {o' : Obs} (maps : InodeMaps fs n o) (one : o'.view 1 = o.view 1) (idle : ∀ b, o'.held b = false)
    (stable : ∀ b, Careful fs.recycle ∨ o.view b = o.disk b → Careful fs.recycle ∨ o'.view b = o'.disk b)
    (padding : ∀ g < n, ∀ i < 8 * bsize, fs.exs.inodesPerGroup.toNat ≤ i → inodeBit o' g i = true) : InodeMaps fs n o' where
  descriptors := maps.descriptors
  apart g small h small' b := by
    rw [inTable_congr one,inTable_congr one]
    exact maps.apart g small h small' b
  behind g small := by
    rw [inTable_congr one]
    exact maps.behind g small
  idle := idle
  desc := stable 1 maps.desc
  stable g small b := by
    rw [inTable_congr one]
    exact fun member => stable b (maps.stable g small b member)
  positive := maps.positive
  capacity := maps.capacity
  own g small h small' := by
    rw [inodeBitmapAt_congr one,inodeBitmapAt_congr one]
    exact maps.own g small h small'
  beyond g small := by
    rw [inodeBitmapAt_congr one]
    exact maps.beyond g small
  outside g small h small' := by
    rw [inodeBitmapAt_congr one,inTable_congr one]
    exact maps.outside g small h small'
  padding := padding
  synced g small := by
    rw [inodeBitmapAt_congr one]
    exact stable _ (maps.synced g small)

theorem InodeMaps.drift {o' : Obs} (maps : InodeMaps fs n o) (drift : Drift fs.recycle o o') : InodeMaps fs n o' := by
  have one := drift.view_eq maps.desc
  refine maps.kept one (fun b => ?_) (fun b => stable_drift drift) fun g small i inside behind => ?_
  · rw [drift.held]
    exact maps.idle b
  · rw [inodeBit,inodeBitmapAt_congr one,drift.view_eq (maps.synced g small)]
    exact maps.padding g small i inside behind

theorem InodeMaps.slot_ne (maps : InodeMaps fs n o) (small : g < n) (inside : z < fs.exs.inodesPerGroup.toNat) :
    slotBlock (desc o g) z ≠ 1 ∧ ∀ h < n, slotBlock (desc o g) z ≠ inodeBitmapAt o h := by
  have member : InTable fs o g (slotBlock (desc o g) z) := inTable_slotBlock inside
  constructor
  · intro same
    rw [same] at member
    exact maps.behind g small member
  · intro h small' same
    rw [same] at member
    exact maps.outside h small' g small member

theorem iallocIn_meets (type : FileType) (maps : InodeMaps fs n (obs d)) (small : g < n) :
    Meets (iallocIn fs type g) d
      (fun r d' => ∃ z o, FirstClear ((obs d).view (inodeBitmapAt (obs d) g)) (scanLimit fs) z ∧
        r.2 = some (UInt32.ofNat g * fs.exs.inodesPerGroup + UInt32.ofNat z + 1) ∧ Drift fs.recycle (obs d) o ∧
        obs d' = initialised type (desc (obs d) g) ((obs d).view (inodeBitmapAt (obs d) g)) z o)
      (fun e => Full ((obs d).view (inodeBitmapAt (obs d) g)) (scanLimit fs) ∧ e = afterFull fs) := by
  obtain ⟨d₁,ran₁,drift₁⟩ := readDesc_run (Nat.lt_of_lt_of_le small maps.descriptors) (maps.idle 1) maps.desc
  have maps₁ := maps.drift drift₁
  have one := drift₁.view_eq maps.desc
  have view : (obs d₁).view (desc (obs d) g).inodeBitmap = (obs d).view (inodeBitmapAt (obs d) g) :=
    drift₁.view_eq (maps.synced g small)
  have synced := stable_drift drift₁ (maps.synced g small)
  refine .step ran₁ ((allocateInode_meets fs type g maps₁.idle (maps.beyond g small) synced ?_).mono ?_ ?_)
  · intro z first
    rw [view] at first
    exact (maps.slot_ne small (maps.first_lt small first)).2 g small
  · intro r d' result
    obtain ⟨z,o,first,number,drift,after⟩ := result
    rw [view] at first after
    exact ⟨z,o,first,number,drift₁.trans drift,after⟩
  · intro e stopped
    rw [view] at stopped
    exact stopped

theorem ialloc_meets (type : FileType) (maps : InodeMaps fs n (obs d)) :
    Meets (ialloc fs type) d
      (fun k d' => ∃ z o, FirstClear ((obs d).view (inodeBitmapAt (obs d) 0)) (scanLimit fs) z ∧
        k = UInt32.ofNat z + 1 ∧ Drift fs.recycle (obs d) o ∧
        obs d' = initialised type (desc (obs d) 0) ((obs d).view (inodeBitmapAt (obs d) 0)) z o)
      (fun e => Full ((obs d).view (inodeBitmapAt (obs d) 0)) (scanLimit fs) ∧ e = afterFull fs) := by
  rw [ialloc]
  have round := iallocIn_meets type maps maps.positive
  cases (fs.exs.blocksCount / fs.exs.blocksPerGroup).toNat with
  | zero =>
    refine round.bind fun r d' result => ?_
    obtain ⟨z,o,first,number,drift,after⟩ := result
    obtain ⟨bp,found⟩ := r
    obtain rfl : found = _ := number
    exact .pure_intro ⟨z,o,first,by simp,drift,after⟩
  | succ k =>
    refine round.bind fun r d' result => ?_
    obtain ⟨z,o,first,number,drift,after⟩ := result
    obtain ⟨bp,found⟩ := r
    obtain rfl : found = _ := number
    exact .pure_intro ⟨z,o,first,by simp,drift,after⟩

theorem initialised_view {gd : GroupDesc} {bmap : Block} {c : Blockno} (slot : c ≠ slotBlock gd z) (bitmap : c ≠ gd.inodeBitmap) :
    (initialised type gd bmap z o).view c = o.view c := by
  simp only [initialised,Obs.write,update_of_ne slot,update_of_ne bitmap]

theorem initialised_slot {gd : GroupDesc} {bmap : Block} : (initialised type gd bmap z o).view (slotBlock gd z) =
    (o.view (slotBlock gd z)).patch (slotOffset z) inodeBytes (freshRecord type).byte := by
  simp only [initialised,Obs.write,update_self]

theorem initialised_bitmap {gd : GroupDesc} {bmap : Block} (apart : slotBlock gd z ≠ gd.inodeBitmap) :
    (initialised type gd bmap z o).view gd.inodeBitmap = bmap.setBit z := by
  simp only [initialised,Obs.write,update_of_ne apart.symm,update_self]

end

structure Taken (fs : Mount) (n : Nat) (type : FileType) (g z : Nat) (o o' : Obs) : Prop where
  one : o'.view 1 = o.view 1
  maps : InodeMaps fs n o'
  slot : o'.view (slotBlock (desc o g) z) =
    (o.view (slotBlock (desc o g) z)).patch (slotOffset z) inodeBytes (freshRecord type).byte
  tables : ∀ h < n, ∀ b, InTable fs o h b → b ≠ slotBlock (desc o g) z → o'.view b = o.view b
  bits : ∀ h < n, ∀ i, inodeBit o' h i = if h = g ∧ i = z then true else inodeBit o h i

section

variable {fs : Mount} {type : FileType} {n g z : Nat} {d d' : Dev} {o o' : Obs} {inum : UInt32}

theorem taken (maps : InodeMaps fs n o) (small : g < n) (first : FirstClear (o.view (inodeBitmapAt o g)) (scanLimit fs) z)
    (drift : Drift fs.recycle o o') :
    Taken fs n type g z o (initialised type (desc o g) (o.view (inodeBitmapAt o g)) z o') := by
  have inside := maps.first_lt small first
  obtain ⟨notOne,notBitmap⟩ := maps.slot_ne small inside
  have one : (initialised type (desc o g) (o.view (inodeBitmapAt o g)) z o').view 1 = o.view 1 := by
    rw [initialised_view notOne.symm (maps.beyond g small).symm]
    exact drift.view_eq maps.desc
  have bits : ∀ h < n, ∀ i, inodeBit (initialised type (desc o g) (o.view (inodeBitmapAt o g)) z o') h i =
      if h = g ∧ i = z then true else inodeBit o h i := by
    intro h small' i
    rw [inodeBit,inodeBitmapAt_congr one]
    by_cases same : h = g
    · subst same
      rw [inodeBitmapAt,initialised_bitmap (notBitmap h small),bit_setBit _ _ _ first.inside,inodeBit]
      by_cases marked : i = z
      · simp [marked]
      · simp [marked,inodeBitmapAt]
    · rw [if_neg (fun both => same both.1),initialised_view (notBitmap h small').symm (fun equal => same (maps.own h small' g small equal)),
        drift.view_eq (maps.synced h small'),inodeBit]
  refine ⟨one,?_,?_,?_,bits⟩
  · refine maps.kept one ?_ ?_ ?_
    · intro b
      exact (congrFun drift.held b).trans (maps.idle b)
    · intro b stable
      exact stable_write (stable_write (stable_drift drift stable))
    · intro h small' i bound behind
      rw [bits h small' i]
      split_ifs
      · rfl
      · exact maps.padding h small' i bound behind
  · rw [initialised_slot,drift.view_eq (maps.stable g small _ (inTable_slotBlock inside))]
  · intro h small' b member other
    rw [initialised_view other,drift.view_eq (maps.stable h small' b member)]
    intro same
    rw [same] at member
    exact maps.outside g small h small' member

theorem InodeMaps.number (maps : InodeMaps fs n o) (small : g < n) (inside : z < fs.exs.inodesPerGroup.toNat)
    (number : inum = UInt32.ofNat g * fs.exs.inodesPerGroup + UInt32.ofNat z + 1) :
    Numbered fs n inum ∧ groupNo fs inum = g ∧ indexOf fs inum = z := by
  have few := Nat.lt_of_lt_of_le small maps.descriptors
  have capacity := maps.capacity
  simp only [bsize] at capacity
  have product : g * fs.exs.inodesPerGroup.toNat ≤ 63 * 16384 := Nat.mul_le_mul (by omega) capacity
  have value : (inum - 1).toNat = g * fs.exs.inodesPerGroup.toNat + z := by
    rw [number,add_sub_cancel_right,UInt32.toNat_add,UInt32.toNat_mul,UInt32.toNat_ofNat',UInt32.toNat_ofNat',
      Nat.mod_eq_of_lt (show g < 2 ^ 32 by omega),Nat.mod_eq_of_lt (show z < 2 ^ 32 by omega),
      Nat.mod_eq_of_lt (show g * fs.exs.inodesPerGroup.toNat < 2 ^ 32 by omega),Nat.mod_eq_of_lt (by omega)]
  have group : groupNo fs inum = g := by
    rw [groupNo,value,Nat.mul_comm,Nat.mul_add_div fs.inodesPerGroup_pos,Nat.div_eq_of_lt inside,add_zero]
  refine ⟨⟨?_,by rw [group]; exact small⟩,group,?_⟩
  · intro zero
    have last : (0 - 1 : UInt32).toNat = 2 ^ 32 - 1 := by decide
    rw [zero,last] at value
    omega
  · rw [indexOf,value,Nat.mul_comm,Nat.mul_add_mod,Nat.mod_eq_of_lt inside]

theorem ifree_meets (maps : InodeMaps fs n (obs d)) (valid : Numbered fs n inum) :
    Meets (ifree fs inum) d
      (fun _ d' => ∃ o, Drift fs.recycle (obs d) o ∧ obs d' = o.write (inodeBitmapAt (obs d) (groupNo fs inum))
        (((obs d).view (inodeBitmapAt (obs d) (groupNo fs inum))).clearBit (indexOf fs inum)))
      (fun _ => inodeBit (obs d) (groupNo fs inum) (indexOf fs inum) = false) := by
  obtain ⟨d₁,ran₁,drift₁⟩ := readDesc_run (Nat.lt_of_lt_of_le valid.2 maps.descriptors) (maps.idle 1) maps.desc
  refine .step ran₁ ?_
  have synced := maps.synced _ valid.2
  rw [inodeBit]
  have idle : (obs d₁).held (inodeBitmapAt (obs d) (groupNo fs inum)) = false := by
    rw [drift₁.held]
    exact maps.idle _
  obtain ⟨d₂,o₂,ran₂,drift₂,locked₂⟩ := bread_drift fs.recycle idle
  have both := drift₁.trans drift₂
  have view : (obs d₂).view (inodeBitmapAt (obs d) (groupNo fs inum)) = (obs d).view (inodeBitmapAt (obs d) (groupNo fs inum)) := by
    rw [locked₂]
    exact both.view_eq synced
  have held : (obs d₂).held (inodeBitmapAt (obs d) (groupNo fs inum)) = true := by simp [locked₂,Obs.lock]
  have inside : indexOf fs inum / 8 < bsize := by
    have bound := Nat.lt_of_lt_of_le (indexOf_lt fs inum) maps.capacity
    omega
  change Meets (bread fs.recycle (inodeBitmapAt (obs d) (groupNo fs inum)) >>= fun _ => bdata (inodeBitmapAt (obs d) (groupNo fs inum)) >>= _) d₁ _ _
  refine .step ran₂ (.step (bdata_run held) ?_)
  rw [view,if_pos inside]
  split_ifs with clear
  · exact .of_error rfl clear
  · obtain ⟨d₃,ran₃,stored₃⟩ := bset_run held (((obs d).view (inodeBitmapAt (obs d) (groupNo fs inum))).clearBit (indexOf fs inum))
    obtain ⟨d₄,ran₄,written₄⟩ := bwrite_run (d := d₃) (b := inodeBitmapAt (obs d) (groupNo fs inum)) (by simp [stored₃,Obs.set,held])
    obtain ⟨d₅,ran₅,released₅⟩ := brelse_run (d := d₄) (b := inodeBitmapAt (obs d) (groupNo fs inum))
      (by simp [written₄,stored₃,Obs.set,Obs.flush,held])
    refine .step ran₃ (.step ran₄ (.of_ok ran₅ ⟨o₂,both,?_⟩))
    rw [released₅,written₄,stored₃,locked₂,Obs.write_locked _ _ _ (by rw [both.held]; exact maps.idle _)]

end

end Xv6Ext2.Ext2
