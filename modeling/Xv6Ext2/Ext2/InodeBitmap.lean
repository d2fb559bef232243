import Xv6Ext2.Ext2.Ialloc

/-! Runs of inode allocation: inode numbers in use are distinct and can be given back, where a new inode is initialised,
and when an allocation finds a free inode. -/
namespace Xv6Ext2.Ext2
open Lib Bio Function

/-- Inode `k` is taken: its bit was clear and is set, and no other bit of an inode bitmap is changed. -/
structure Takes (fs : Mount) (n : Nat) (k : UInt32) (o o' : Obs) : Prop where
  numbered : Numbered fs n k
  clear : inodeBit o (groupNo fs k) (indexOf fs k) = false
  marked : inodeBit o' (groupNo fs k) (indexOf fs k) = true
  others : ∀ g < n, ∀ i, ¬(g = groupNo fs k ∧ i = indexOf fs k) → inodeBit o' g i = inodeBit o g i

/-- `ext2_ifree` on inode `k` returns, and it clears the bit of `k` and no other bit of an inode bitmap. -/
def GivesBack (fs : Mount) (n : Nat) (k : UInt32) (d : Dev) : Prop :=
  ∃ d', ifree fs k d = .ok ((),d') ∧ inodeBit (obs d') (groupNo fs k) (indexOf fs k) = false ∧
    ∀ g < n, ∀ i, ¬(g = groupNo fs k ∧ i = indexOf fs k) → inodeBit (obs d') g i = inodeBit (obs d) g i

/-- A device and the inode numbers that were allocated and not freed. Calls of the allocator are the steps, and whatever
else the driver does between them leaves the inode bitmaps alone. -/
inductive InodeStep (fs : Mount) (n : Nat) : Dev × List UInt32 → Dev × List UInt32 → Prop where
  | alloc {d d' : Dev} {live : List UInt32} {type : FileType} {k : UInt32} (ran : ialloc fs type d = .ok (k,d')) :
      InodeStep fs n (d,live) (d',k :: live)
  | free {d d' : Dev} {live : List UInt32} {k : UInt32} (valid : Numbered fs n k) (ran : ifree fs k d = .ok ((),d')) :
      InodeStep fs n (d,live) (d',live.erase k)
  | other {d d' : Dev} {live : List UInt32} (maps : InodeMaps fs n (obs d'))
      (bits : ∀ g < n, ∀ i, inodeBit (obs d') g i = inodeBit (obs d) g i) : InodeStep fs n (d,live) (d',live)

structure Marked (fs : Mount) (n : Nat) (s : Dev × List UInt32) : Prop where
  maps : InodeMaps fs n (obs s.1)
  nodup : s.2.Nodup
  marked : ∀ k ∈ s.2, Numbered fs n k ∧ inodeBit (obs s.1) (groupNo fs k) (indexOf fs k) = true

section

variable {fs : Mount} {type : FileType} {n : Nat} {d d' : Dev} {k l : UInt32} {s s' : Dev × List UInt32}

theorem ialloc_taken (maps : InodeMaps fs n (obs d)) (ran : ialloc fs type d = .ok (k,d')) :
    ∃ z, FirstClear ((obs d).view (inodeBitmapAt (obs d) 0)) (scanLimit fs) z ∧ Numbered fs n k ∧ groupNo fs k = 0 ∧
      indexOf fs k = z ∧ Taken fs n type 0 z (obs d) (obs d') := by
  obtain ⟨z,o,first,number,drift,after⟩ := (ialloc_meets type maps).result ran
  have inside := maps.first_lt maps.positive first
  have counted : k = UInt32.ofNat 0 * fs.exs.inodesPerGroup + UInt32.ofNat z + 1 := by simp [number]
  obtain ⟨valid,group,index⟩ := maps.number maps.positive inside counted
  refine ⟨z,first,valid,group,index,?_⟩
  rw [after]
  exact taken maps maps.positive first drift

theorem ialloc_takes (maps : InodeMaps fs n (obs d)) (ran : ialloc fs type d = .ok (k,d')) :
    InodeMaps fs n (obs d') ∧ Takes fs n k (obs d) (obs d') := by
  obtain ⟨z,first,valid,group,index,taken⟩ := ialloc_taken maps ran
  refine ⟨taken.maps,valid,?_,?_,?_⟩
  · rw [group,index]
    exact first.clear
  · rw [group,index,taken.bits 0 maps.positive,if_pos ⟨rfl,rfl⟩]
  · intro g small i other
    rw [group,index] at other
    rw [taken.bits g small,if_neg other]

theorem ifree_gives (maps : InodeMaps fs n (obs d)) (valid : Numbered fs n k) (ran : ifree fs k d = .ok ((),d')) :
    InodeMaps fs n (obs d') ∧ ∀ g < n, ∀ i,
      inodeBit (obs d') g i = if g = groupNo fs k ∧ i = indexOf fs k then false else inodeBit (obs d) g i := by
  obtain ⟨o,drift,after⟩ := (ifree_meets maps valid).result ran
  have index := indexOf_lt fs k
  have one : (obs d').view 1 = (obs d).view 1 := by
    rw [after]
    simp only [Obs.write,update_of_ne (maps.beyond _ valid.2).symm]
    exact drift.view_eq maps.desc
  have bits : ∀ g < n, ∀ i,
      inodeBit (obs d') g i = if g = groupNo fs k ∧ i = indexOf fs k then false else inodeBit (obs d) g i := by
    intro g small i
    rw [inodeBit,inodeBitmapAt_congr one,after]
    by_cases same : g = groupNo fs k
    · rw [same,Obs.write]
      simp only [update_self,inodeBit]
      rw [bit_clearBit _ _ _ (Nat.lt_of_lt_of_le index maps.capacity)]
      by_cases here : i = indexOf fs k
      · simp [here]
      · simp [here]
    · rw [if_neg (fun both => same both.1),Obs.write]
      simp only [update_of_ne (fun equal => same (maps.own g small _ valid.2 equal))]
      rw [drift.view_eq (maps.synced g small),inodeBit]
  refine ⟨?_,bits⟩
  refine maps.kept one ?_ ?_ ?_
  · intro b
    rw [after]
    exact (congrFun drift.held b).trans (maps.idle b)
  · intro b stable
    rw [after]
    exact stable_write (stable_drift drift stable)
  · intro g small i inside behind
    rw [bits g small i,if_neg]
    · exact maps.padding g small i inside behind
    · intro both
      omega

theorem gives_back (maps : InodeMaps fs n (obs d)) (valid : Numbered fs n k)
    (marked : inodeBit (obs d) (groupNo fs k) (indexOf fs k) = true) : GivesBack fs n k d := by
  obtain ⟨⟨⟩,d',ran,-⟩ := (ifree_meets maps valid).returns (fun _ clear => by rw [marked] at clear; contradiction)
  obtain ⟨-,bits⟩ := ifree_gives maps valid ran
  refine ⟨d',ran,?_,?_⟩
  · rw [bits _ valid.2,if_pos ⟨rfl,rfl⟩]
  · intro g small i other
    rw [bits g small,if_neg other]

theorem Marked.step (marked : Marked fs n s) (step : InodeStep fs n s s') : Marked fs n s' := by
  cases step with
  | alloc ran =>
    obtain ⟨maps,takes⟩ := ialloc_takes marked.maps ran
    refine ⟨maps,List.nodup_cons.mpr ⟨?_,marked.nodup⟩,?_⟩
    · -- a number in use has its bit set
      intro used
      have set := (marked.marked _ used).2
      rw [takes.clear] at set
      contradiction
    · intro l member
      rcases List.mem_cons.mp member with same | used
      · rw [same]
        exact ⟨takes.numbered,takes.marked⟩
      · obtain ⟨valid,set⟩ := marked.marked l used
        refine ⟨valid,(takes.others _ valid.2 _ ?_).trans set⟩
        intro both
        rw [both.1,both.2,takes.clear] at set
        contradiction
  | free valid ran =>
    obtain ⟨maps,bits⟩ := ifree_gives marked.maps valid ran
    refine ⟨maps,marked.nodup.erase _,?_⟩
    intro l member
    obtain ⟨different,used⟩ := (marked.nodup.mem_erase_iff).mp member
    obtain ⟨valid',set⟩ := marked.marked l used
    refine ⟨valid',?_⟩
    rw [bits _ valid'.2,if_neg]
    · exact set
    · intro both
      exact different (inum_inj both.1 both.2)
  | other maps bits =>
    refine ⟨maps,marked.nodup,?_⟩
    intro l member
    obtain ⟨valid,set⟩ := marked.marked l member
    exact ⟨valid,(bits _ valid.2 _).trans set⟩

theorem Marked.run (marked : Marked fs n s) (run : Relation.ReflTransGen (InodeStep fs n) s s') : Marked fs n s' := by
  induction run with
  | refl => exact marked
  | tail _ step ih => exact ih.step step

end

def marks (eight : UInt8) : Block := fun i => if i.val < 2 then eight else 255

def twoGroups (first second : UInt8) : Blockno → Block := fun b =>
  if b = 1 then
    ((Bytes.zero bsize).setU32 0 2).setU32 4 3 |>.setU32 8 4 |>.setU32 32 10 |>.setU32 36 11 |>.setU32 40 12
  else if b = 3 then marks first
  else if b = 11 then marks second
  else if b = 4 then ((Bytes.zero bsize).setU16 256 0o100000).setU16 282 1
  else Bytes.zero bsize

/-- Two groups of this many blocks, with 16 inodes of 256 bytes each. -/
def groupsOf (blocks : UInt32) : Mount where
  exs := ⟨2 * blocks,0,1,blocks,16,256,0⟩
  recycle _ _ := true
  devRead _ := none
  devWrite _ := none
  inodesPerGroup_pos := (by decide : 0 < (16 : UInt32).toNat)
  inodeSize_ge := (by decide : 128 ≤ (256 : UInt16).toNat)
  inodeSize_le := (by decide : (256 : UInt16).toNat ≤ bsize)

def wideMount : Mount := groupsOf 8

private theorem twoGroups_desc (first second : UInt8) : ∀ g < 2, desc (obs (cold (twoGroups first second))) g =
    ⟨[2,10].getD g 0,[3,11].getD g 0,[4,12].getD g 0⟩ := by
  have same : (obs (cold (twoGroups first second))).view 1 = (obs (cold (twoGroups 0 0))).view 1 := rfl
  intro g small
  rw [desc_congr same]
  revert g
  decide +kernel

private theorem twoGroups_inTable {first second : UInt8} {g : Nat} (small : g < 2) {b : Blockno}
    (member : InTable wideMount (obs (cold (twoGroups first second))) g b) :
    b ∉ [1,3,11] ∧ g = if b < 12 then 0 else 1 := by
  obtain ⟨i,bound,rfl⟩ := member
  rw [tableAt,twoGroups_desc first second g small]
  clear first second
  revert i g
  decide

private theorem marks_padding (eight : UInt8) : ∀ i < 8 * bsize, 16 ≤ i → bit (marks eight).byte i = true := by
  intro i inside behind
  have byte : (marks eight).byte (i / 8) = 255 := by
    rw [Bytes.byte,dif_pos (by omega),marks,if_neg (show ¬i / 8 < 2 by omega)]
  rw [bit,byte]
  have low : ∀ j < 8, (255 : UInt8).toNat.testBit j = true := by decide
  exact low _ (Nat.mod_lt _ (by decide))

theorem twoGroups_maps (first second : UInt8) : InodeMaps wideMount 2 (obs (cold (twoGroups first second))) where
  descriptors := by decide
  apart g small h small' b member member' := by
    rw [(twoGroups_inTable small member).2,(twoGroups_inTable small' member').2]
  behind g small member := absurd (twoGroups_inTable small member).1 (by decide)
  idle _ := rfl
  desc := .inr rfl
  stable _ _ _ _ := .inr rfl
  positive := by decide
  capacity := by decide
  own g small h small' same := by
    rw [inodeBitmapAt,inodeBitmapAt,twoGroups_desc first second g small,twoGroups_desc first second h small'] at same
    clear first second
    revert g h
    decide
  beyond g small same := by
    rw [inodeBitmapAt,twoGroups_desc first second g small] at same
    clear first second
    revert g
    decide
  outside g small h small' member := by
    have apart := (twoGroups_inTable small' member).1
    clear member
    rw [inodeBitmapAt,twoGroups_desc first second g small] at apart
    clear first second
    revert g
    decide
  padding g small i inside behind := by
    rw [inodeBit,inodeBitmapAt,twoGroups_desc first second g small]
    have cases : g = 0 ∨ g = 1 := by omega
    rcases cases with rfl | rfl
    · have view : twoGroups first second 3 = marks first := rfl
      exact (congrArg (fun data : Block => bit data.byte i) view).trans (marks_padding first i inside behind)
    · have view : twoGroups first second 11 = marks second := rfl
      exact (congrArg (fun data : Block => bit data.byte i) view).trans (marks_padding second i inside behind)
  synced _ _ := .inr rfl

theorem groupsOf_maps (blocks : UInt32) (first second : UInt8) : InodeMaps (groupsOf blocks) 2 (obs (cold (twoGroups first second))) := by
  have maps := twoGroups_maps first second
  exact ⟨⟨maps.descriptors,maps.apart,maps.behind,maps.idle,maps.desc,maps.stable⟩,maps.positive,maps.capacity,maps.own,maps.beyond,
    maps.outside,maps.padding,maps.synced⟩

/-- A call of `ext2_ialloc` takes a free inode and nothing else, or stops; its scan does not leave the bitmap block. -/
structure AllocatesInside (fs : Mount) (n : Nat) (type : FileType) (d : Dev) : Prop where
  inside : ialloc fs type d ≠ .error .outOfBounds
  takes : ∀ k d', ialloc fs type d = .ok (k,d') → Takes fs n k (obs d) (obs d')

section

variable {fs : Mount} {type : FileType} {n : Nat} {d : Dev}

theorem ialloc_full (type : FileType) (maps : InodeMaps fs n (obs d)) (full : Full ((obs d).view (inodeBitmapAt (obs d) 0)) (scanLimit fs)) :
    ialloc fs type d = .error (afterFull fs) := by
  have meets := ialloc_meets type maps
  cases ran : ialloc fs type d with
  | error e =>
    rw [Meets,ran] at meets
    rw [meets.2]
  | ok r =>
    obtain ⟨z,_,first,_⟩ := meets.result ran
    exact absurd full first.not_full

theorem allocatesInside_iff (type : FileType) (maps : InodeMaps fs n (obs d)) : AllocatesInside fs n type d ↔
    (∃ i < fs.exs.inodesPerGroup.toNat, i < scanLimit fs ∧ inodeBit (obs d) 0 i = false) ∨ scanLimit fs ≤ 8 * bsize := by
  by_cases full : Full ((obs d).view (inodeBitmapAt (obs d) 0)) (scanLimit fs)
  · have none : ¬∃ i < fs.exs.inodesPerGroup.toNat, i < scanLimit fs ∧ inodeBit (obs d) 0 i = false := by
      rintro ⟨i,inside,scanned,clear⟩
      have set := full i scanned (Nat.lt_of_lt_of_le inside maps.capacity)
      rw [← inodeBit,clear] at set
      contradiction
    have stopped := ialloc_full type maps full
    rw [afterFull] at stopped
    constructor
    · intro sound
      refine .inr ?_
      by_contra wide
      rw [if_neg wide] at stopped
      exact sound.inside stopped
    · intro either
      rw [if_pos (either.resolve_left none)] at stopped
      refine ⟨by simp [stopped],?_⟩
      intro k d' ran
      rw [stopped] at ran
      contradiction
  · obtain ⟨i,scanned,bound,clear⟩ : ∃ i < scanLimit fs, i < 8 * bsize ∧ inodeBit (obs d) 0 i = false := by
      simp only [Full,not_forall] at full
      obtain ⟨i,scanned,bound,unset⟩ := full
      exact ⟨i,scanned,bound,Bool.eq_false_of_not_eq_true unset⟩
    have inside : i < fs.exs.inodesPerGroup.toNat := by
      by_contra behind
      rw [maps.padding 0 maps.positive i bound (Nat.le_of_not_lt behind)] at clear
      contradiction
    refine ⟨fun _ => .inl ⟨i,inside,scanned,clear⟩,fun _ => ⟨?_,fun k d' ran => (ialloc_takes maps ran).2⟩⟩
    intro left
    have meets := ialloc_meets type maps
    rw [Meets,left] at meets
    exact full meets.1

end

/-- Over any run the inodes in use are distinct and each of them can be given back. A further allocation takes a free inode
and nothing else, unless group 0 is full and the scan has more rounds than the block has bits. -/
theorem inode_numbers_distinct {fs : Mount} {n : Nat} {d d' : Dev} {live : List UInt32} (maps : InodeMaps fs n (obs d))
    (run : Relation.ReflTransGen (InodeStep fs n) (d,[]) (d',live)) :
    live.Nodup ∧ (∀ k ∈ live, GivesBack fs n k d') ∧ ∀ type, AllocatesInside fs n type d' ↔
      (∃ i < fs.exs.inodesPerGroup.toNat, i < scanLimit fs ∧ inodeBit (obs d') 0 i = false) ∨ scanLimit fs ≤ 8 * bsize := by
  have empty : Marked fs n (d,[]) := ⟨maps,List.nodup_nil,fun _ member => absurd member List.not_mem_nil⟩
  have marked := empty.run run
  refine ⟨marked.nodup,?_,fun type => allocatesInside_iff type marked.maps⟩
  intro k member
  obtain ⟨valid,set⟩ := marked.marked k member
  exact gives_back marked.maps valid set

/-- An inode of the first group is taken and can be given back, and the next allocation is sound too. -/
theorem inode_number_given_back : ∃ d', ialloc (groupsOf 16384) .file (cold (twoGroups 3 0)) = .ok (3,d') ∧
    GivesBack (groupsOf 16384) 2 3 d' ∧ AllocatesInside (groupsOf 16384) 2 .file d' := by
  have maps := groupsOf_maps 16384 3 0
  have seen : probe (ialloc (groupsOf 16384) .file) (cold (twoGroups 3 0))
      (fun k d' => if inodeBit (obs d') 0 3 = false then some k else none) = some 3 := by decide +kernel
  obtain ⟨k,d',ran,found⟩ := probe_eq_some seen
  obtain ⟨-,back,next⟩ := inode_numbers_distinct maps (.single (.alloc ran))
  by_cases clear : inodeBit (obs d') 0 3 = false
  · rw [if_pos clear] at found
    obtain rfl : k = 3 := Option.some.inj found
    exact ⟨d',ran,back 3 (List.mem_singleton.mpr rfl),(next .file).mpr (.inl ⟨3,by decide,by decide,clear⟩)⟩
  · rw [if_neg clear] at found
    contradiction

theorem marks_full : ∀ i < 8 * bsize, bit (marks 255).byte i = true := by
  intro i inside
  by_cases behind : 16 ≤ i
  · exact marks_padding 255 i inside behind
  · have early : ∀ i < 16, bit (marks 255).byte i = true := by decide +kernel
    exact early i (by omega)

/-- With groups of 16384 blocks, as `mke2fs` makes them, and group 0 full, the scan leaves the bitmap block. -/
theorem ialloc_leaves_bitmap : InodeMaps (groupsOf 16384) 2 (obs (cold (twoGroups 255 0))) ∧
    ialloc (groupsOf 16384) .file (cold (twoGroups 255 0)) = .error .outOfBounds ∧
    ¬AllocatesInside (groupsOf 16384) 2 .file (cold (twoGroups 255 0)) := by
  have maps := groupsOf_maps 16384 255 0
  have bitmap : inodeBitmapAt (obs (cold (twoGroups 255 0))) 0 = 3 := by decide +kernel
  have full : Full ((obs (cold (twoGroups 255 0))).view (inodeBitmapAt (obs (cold (twoGroups 255 0))) 0)) (scanLimit (groupsOf 16384)) := by
    intro i _ inside
    rw [bitmap]
    exact marks_full i inside
  have left := ialloc_full .file maps full
  rw [afterFull,if_neg (by decide)] at left
  exact ⟨maps,left,fun sound => sound.inside left⟩

/-- The bytes that `ext2_ialloc` initialises for index `z` of group `g` are those of inode `k`, and no byte of another
inode is changed. -/
def Initialises (fs : Mount) (n g z : Nat) (k : UInt32) (o o' : Obs) : Prop :=
  (slotBlock (desc o g) z = tableOf fs o k ∧ slotOffset z = inodeOffset fs k) ∧
    ∀ l, Numbered fs n l → l ≠ k → ∀ j < fs.exs.inodeSize.toNat,
      (o'.view (tableOf fs o l)).byte (inodeOffset fs l + j) = (o.view (tableOf fs o l)).byte (inodeOffset fs l + j)

section

variable {fs : Mount} {type : FileType} {n g z : Nat} {d d' : Dev} {k : UInt32} {o o' : Obs}

theorem slot_eq_iff (maps : InodeMaps fs n o) (inside : z < fs.exs.inodesPerGroup.toNat)
    (group : groupNo fs k = g) (index : indexOf fs k = z) :
    (slotBlock (desc o g) z = tableOf fs o k ∧ slotOffset z = inodeOffset fs k) ↔ fs.exs.inodeSize.toNat = 128 ∨ z = 0 := by
  have low := fs.inodeSize_ge
  have capacity := maps.capacity
  rw [tableOf_eq,inodeOffset_eq,group,index,slotOffset,slotBlock]
  constructor
  · intro both
    obtain ⟨block,offset⟩ := both
    have row : z / (bsize / inodeBytes) = z / inodesPerBlock fs := by
      have value := congrArg UInt32.toNat (add_left_cancel (a := tableAt o g) block)
      have first := Nat.div_le_self z (bsize / inodeBytes)
      have second := Nat.div_le_self z (inodesPerBlock fs)
      simp only [bsize] at capacity
      rwa [UInt32.toNat_ofNat',UInt32.toNat_ofNat',Nat.mod_eq_of_lt (by omega),Nat.mod_eq_of_lt (by omega)] at value
    by_contra neither
    have wide : 129 ≤ fs.exs.inodeSize.toNat := by omega
    have few : inodesPerBlock fs ≤ 15 := Nat.div_le_div_left wide (by decide)
    -- the scans differ by at least one index in each block before this one
    have ours := Nat.div_add_mod z (bsize / inodeBytes)
    have theirs := Nat.div_add_mod z (inodesPerBlock fs)
    rw [row] at ours
    have fewer := Nat.mul_le_mul_right (z / inodesPerBlock fs) few
    have wider := Nat.mul_le_mul_left (z % inodesPerBlock fs) wide
    rw [← offset] at wider
    simp only [bsize,inodeBytes,Nat.reduceDiv] at ours wider
    omega
  · intro either
    rcases either with narrow | zero
    · rw [inodesPerBlock,narrow]
      exact ⟨rfl,rfl⟩
    · rw [zero,Nat.zero_div,Nat.zero_div,Nat.zero_mod,Nat.zero_mod,Nat.zero_mul,Nat.zero_mul]
      exact ⟨rfl,rfl⟩

theorem Taken.others_kept (maps : InodeMaps fs n o) (taken : Taken fs n type g z o o') (valid : Numbered fs n k)
    (block : slotBlock (desc o g) z = tableOf fs o k) (offset : slotOffset z = inodeOffset fs k) {l : UInt32}
    (valid' : Numbered fs n l) (different : l ≠ k) {j : Nat} (inside : j < fs.exs.inodeSize.toNat) :
    (o'.view (tableOf fs o l)).byte (inodeOffset fs l + j) = (o.view (tableOf fs o l)).byte (inodeOffset fs l + j) := by
  by_cases same : tableOf fs o l = slotBlock (desc o g) z
  · rw [same,taken.slot,offset]
    have apart := records_apart maps.toTables valid' valid different (same.trans block)
    have low := fs.inodeSize_ge
    refine Bytes.byte_patch_outside _ _ _ _ _ ?_
    rw [inodeBytes]
    omega
  · rw [taken.tables _ valid'.2 _ (inTable_tableOf fs o l) same]

end

/-- A round of `ext2_ialloc` writes the record of the inode it returns, and of no other, when inodes are 128 bytes
apart or the inode is the first of its group. -/
theorem ialloc_initialises_iff {fs : Mount} {type : FileType} {n g z : Nat} {d : Dev} (maps : InodeMaps fs n (obs d)) (small : g < n)
    (first : FirstClear ((obs d).view (inodeBitmapAt (obs d) g)) (scanLimit fs) z) :
    ∃ b k d', iallocIn fs type g d = .ok ((b,some k),d') ∧ Taken fs n type g z (obs d) (obs d') ∧
      (Initialises fs n g z k (obs d) (obs d') ↔ fs.exs.inodeSize.toNat = 128 ∨ z = 0) := by
  obtain ⟨r,d',ran,z',o,first',number,drift,after⟩ :=
    (iallocIn_meets type maps small).returns (fun _ stopped => first.not_full stopped.1)
  obtain rfl := first.unique first'
  obtain ⟨b,found⟩ := r
  obtain rfl : found = _ := number
  have inside := maps.first_lt small first
  obtain ⟨valid,group,index⟩ := maps.number small inside rfl
  have slot := slot_eq_iff maps inside group index
  have took : Taken fs n type g z (obs d) (obs d') := by
    rw [after]
    exact taken maps small first drift
  refine ⟨b,_,d',ran,took,?_⟩
  constructor
  · intro initialises
    exact slot.mp initialises.1
  · intro either
    have place := slot.mpr either
    exact ⟨place,fun l valid' different j bound => took.others_kept maps valid place.1 place.2 valid' different bound⟩

/-- The first inode of the second group is initialised where it lies. -/
theorem ialloc_initialises_first : ∃ b k d', iallocIn wideMount .dir 1 (cold (twoGroups 3 0)) = .ok ((b,some k),d') ∧
    Initialises wideMount 2 1 0 k (obs (cold (twoGroups 3 0))) (obs d') := by
  have clear : bit ((obs (cold (twoGroups 3 0))).view (inodeBitmapAt (obs (cold (twoGroups 3 0))) 1)).byte 0 = false := by
    decide +kernel
  have first : FirstClear ((obs (cold (twoGroups 3 0))).view (inodeBitmapAt (obs (cold (twoGroups 3 0))) 1)) (scanLimit wideMount) 0 :=
    ⟨by decide,by decide,clear,fun j early => absurd early (Nat.not_lt_zero j)⟩
  obtain ⟨b,k,d',ran,-,initialises⟩ := @ialloc_initialises_iff wideMount .dir 2 1 0 (cold (twoGroups 3 0)) (twoGroups_maps 3 0)
    (by decide) first
  exact ⟨b,k,d',ran,initialises.mpr (.inr rfl)⟩

/-- With inodes of 256 bytes `ext2_ialloc` returns inode 3 and clears inode 2, whose link count was one. The record of
inode 3 is as it was and `ext2_ilock` panics. -/
theorem ialloc_clears_other_inode : InodeMaps wideMount 2 (obs (cold (twoGroups 3 0))) ∧
    (∃ d₁ ip, ilock wideMount (newInode 2 .free) (cold (twoGroups 3 0)) = .ok (ip,d₁) ∧ ip.nlink = 1) ∧
    ∃ d', ialloc wideMount .file (cold (twoGroups 3 0)) = .ok (3,d') ∧
      (∃ d₂ ip, ilock wideMount (newInode 2 .free) d' = .ok (ip,d₂) ∧ ip.nlink = 0) ∧
      ilock wideMount (newInode 3 .free) d' = .error (.panic "ilock: no type") := by
  have before : probe (ilock wideMount (newInode 2 .free)) (cold (twoGroups 3 0)) (fun ip _ => some ip.nlink) = some 1 := by
    decide +kernel
  have after : probe (ialloc wideMount .file) (cold (twoGroups 3 0)) (fun k d' =>
      probe (ilock wideMount (newInode 2 .free)) d' (fun ip _ => some (k,ip.nlink,stopped (ilock wideMount (newInode 3 .free)) d'))) =
      some (3,0,some (.panic "ilock: no type")) := by decide +kernel
  obtain ⟨ip₁,d₁,read₁,links₁⟩ := probe_eq_some before
  obtain ⟨k,d',ran,rest⟩ := probe_eq_some after
  obtain ⟨ip₂,d₂,read₂,values⟩ := probe_eq_some rest
  simp only [Option.some.injEq,Prod.mk.injEq] at links₁ values
  obtain ⟨rfl,links₂,panics⟩ := values
  exact ⟨twoGroups_maps 3 0,⟨d₁,ip₁,read₁,links₁⟩,d',ran,⟨d₂,ip₂,read₂,links₂⟩,stopped_eq_some panics⟩

def Alike (n : Nat) (o o' : Obs) : Prop := (∀ g < n, desc o' g = desc o g) ∧ ∀ b ≠ 1, o'.view b = o.view b

/-- `ext2_ialloc` is complete: it finds an inode if any group has a free one and leaves no buffer held, it stops only when
all groups are full and says so, and what is behind the `n` descriptors does not matter. -/
structure Complete (fs : Mount) (n : Nat) (type : FileType) (d : Dev) : Prop where
  finds : (∃ g < n, ∃ i < fs.exs.inodesPerGroup.toNat, inodeBit (obs d) g i = false) →
    ∃ k d', ialloc fs type d = .ok (k,d') ∧ Takes fs n k (obs d) (obs d') ∧ ∀ b, (obs d').held b = false
  refuses : ∀ e, ialloc fs type d = .error e → e = .panic "ialloc: no inodes" ∧
    ∀ g < n, ∀ i < fs.exs.inodesPerGroup.toNat, inodeBit (obs d) g i = true
  examines : ∀ d₂, InodeMaps fs n (obs d₂) → Alike n (obs d) (obs d₂) →
    (ialloc fs type d₂).map Prod.fst = (ialloc fs type d).map Prod.fst

section

variable {fs : Mount} {type : FileType} {n g z : Nat} {d d' : Dev}

theorem firstClear_of_clear {bmap : Block} {limit i : Nat} (scanned : i < limit) (inside : i < 8 * bsize)
    (clear : bit bmap.byte i = false) : ∃ z, FirstClear bmap limit z := by
  rcases zerothBitFrom_cases bmap limit 0 (cold fun _ => bmap) (fun j bound => absurd bound (Nat.not_lt_zero j)) (Nat.zero_le _) with
    ⟨z,first,-⟩ | ⟨full,-⟩
  · rw [Nat.zero_add] at first
    exact ⟨z,first⟩
  · have used := full i (by omega) inside
    rw [clear] at used
    contradiction

theorem ialloc_returns (type : FileType) (maps : InodeMaps fs n (obs d))
    (first : FirstClear ((obs d).view (inodeBitmapAt (obs d) 0)) (scanLimit fs) z) :
    ∃ d', ialloc fs type d = .ok (UInt32.ofNat z + 1,d') := by
  obtain ⟨k,d',ran,z',o,first',number,-,-⟩ := (ialloc_meets type maps).returns (fun _ stopped => first.not_full stopped.1)
  obtain rfl := first.unique first'
  rw [number] at ran
  exact ⟨d',ran⟩

end

/-- `ext2_ialloc` is complete when group 0 has a free inode that the scan reaches. -/
theorem ialloc_complete_iff {fs : Mount} {n : Nat} {type : FileType} {d : Dev} (maps : InodeMaps fs n (obs d)) :
    Complete fs n type d ↔ ∃ i < fs.exs.inodesPerGroup.toNat, i < scanLimit fs ∧ inodeBit (obs d) 0 i = false := by
  constructor
  · intro complete
    cases result : ialloc fs type d with
    | error e =>
      -- a round that finds no bit releases a buffer twice or leaves the bitmap
      have stopped := ialloc_meets type maps
      rw [Meets,result] at stopped
      have reason := stopped.2
      rw [(complete.refuses e result).1,afterFull] at reason
      split at reason
      · exact absurd reason (by decide)
      · exact absurd reason (by decide)
    | ok r =>
      obtain ⟨k,d'⟩ := r
      obtain ⟨z,first,-⟩ := ialloc_taken maps result
      exact ⟨z,maps.first_lt maps.positive first,first.scanned,first.clear⟩
  · intro free
    obtain ⟨i,inside,scanned,clear⟩ := free
    obtain ⟨z,first⟩ := firstClear_of_clear scanned (Nat.lt_of_lt_of_le inside maps.capacity) clear
    obtain ⟨d',ran⟩ := ialloc_returns type maps first
    refine ⟨?_,?_,?_⟩
    · intro _
      obtain ⟨maps',takes⟩ := ialloc_takes maps ran
      exact ⟨_,d',ran,takes,maps'.idle⟩
    · intro e stopped
      rw [ran] at stopped
      contradiction
    · intro d₂ maps₂ alike
      have bitmap : inodeBitmapAt (obs d₂) 0 = inodeBitmapAt (obs d) 0 := congrArg GroupDesc.inodeBitmap (alike.1 0 maps.positive)
      have first₂ : FirstClear ((obs d₂).view (inodeBitmapAt (obs d₂) 0)) (scanLimit fs) z := by
        rw [bitmap,alike.2 _ (maps.beyond 0 maps.positive)]
        exact first
      obtain ⟨d₂',ran₂⟩ := ialloc_returns type maps₂ first₂
      rw [ran,ran₂]
      rfl

/-- With two inodes in use the image is one for which it is complete. -/
theorem ialloc_complete_two_used : Complete wideMount 2 .file (cold (twoGroups 3 0)) := by
  apply (ialloc_complete_iff (twoGroups_maps 3 0)).mpr
  exact ⟨2,by decide,by decide,by decide +kernel⟩

/-- The first group is full and the second is empty: `ext2_ialloc` releases the buffer of the descriptors twice. -/
theorem ialloc_releases_twice : InodeMaps wideMount 2 (obs (cold (twoGroups 255 0))) ∧
    inodeBit (obs (cold (twoGroups 255 0))) 1 0 = false ∧
    ialloc wideMount .file (cold (twoGroups 255 0)) = .error (.panic "brelse") ∧ ¬Complete wideMount 2 .file (cold (twoGroups 255 0)) := by
  have free : inodeBit (obs (cold (twoGroups 255 0))) 1 0 = false := by decide +kernel
  have seen : stopped (ialloc wideMount .file) (cold (twoGroups 255 0)) = some (.panic "brelse") := by decide +kernel
  refine ⟨twoGroups_maps 255 0,free,stopped_eq_some seen,?_⟩
  intro complete
  obtain ⟨k,d',ran,-⟩ := complete.finds ⟨1,by decide,0,by decide,free⟩
  rw [stopped_eq_some seen] at ran
  contradiction

end Xv6Ext2.Ext2
