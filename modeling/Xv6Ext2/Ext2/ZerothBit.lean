import Xv6Ext2.Ext2.InodeBitmap

/-! `zeroth_bit` with the byte that it stores. -/
namespace Xv6Ext2.Ext2
open Lib Bio

/-- `m = 1 << (b % 8)`, of which only the low byte meets a `char`. -/
def bitMask (b : Nat) : UInt8 := UInt8.ofNat (1 <<< (b % 8))

/-- The loop of `zeroth_bit` from bit `b` on, with `k` rounds left. It gives the `uint` that is returned, and the block. -/
def zerothBitLoop (bmap : Block) : Nat → Nat → Except Fault (UInt32 × Block)
  | 0, _ => .ok (0xFFFFFFFF,bmap)
  | k + 1, b =>
    if b / 8 < bsize then
      if bmap.byte (b / 8) &&& bitMask b = 0 then
        .ok (UInt32.ofNat b,bmap.patch (b / 8) 1 (fun _ => bmap.byte (b / 8) ||| bitMask b))
      else zerothBitLoop bmap k (b + 1)
    else .error .outOfBounds

/-- `zeroth_bit(bmap)`, where an access outside the block is a fault. -/
def zerothBitOf (exs : Superblock) (bmap : Block) : Except Fault (UInt32 × Block) :=
  zerothBitLoop bmap (exs.blocksPerGroup * 8).toNat 0

theorem bitMask_eq (b : Nat) : bitMask b = UInt8.ofNat (2 ^ (b % 8)) := by rw [bitMask,Nat.one_shiftLeft]

theorem masked_eq_zero (bmap : Block) (b : Nat) : bmap.byte (b / 8) &&& bitMask b = 0 ↔ bit bmap.byte b = false := by
  have small : 2 ^ (b % 8) < 2 ^ 8 := Nat.pow_lt_pow_right (by decide) (by omega)
  have mask : (UInt8.ofNat (2 ^ (b % 8))).toNat = 2 ^ (b % 8) := by
    rw [UInt8.toNat_ofNat']
    exact Nat.mod_eq_of_lt small
  rw [bitMask_eq,← UInt8.toNat_inj,UInt8.toNat_and,mask,Nat.and_two_pow,bit]
  cases (bmap.byte (b / 8)).toNat.testBit (b % 8) <;> simp

/-- What `zeroth_bit` leaves behind when its scan ended so. -/
def afterScan (bmap : Block) : Except Fault (Option Nat × Dev) → Except Fault (UInt32 × Block)
  | .ok (some z,_) => .ok (UInt32.ofNat z,bmap.setBit z)
  | .ok (none,_) => .ok (0xFFFFFFFF,bmap)
  | .error e => .error e

theorem zerothBitLoop_eq (bmap : Block) (k b : Nat) (d : Dev) :
    zerothBitLoop bmap k b = afterScan bmap (zerothBitFrom bmap k b d) := by
  induction k generalizing b with
  | zero => rfl
  | succ k ih =>
    rw [zerothBitLoop,zerothBitFrom]
    by_cases inside : b / 8 < bsize
    · rw [if_pos inside,if_pos inside]
      cases used : bit bmap.byte b with
      | false =>
        rw [if_pos ((masked_eq_zero bmap b).mpr used),bitMask_eq]
        rfl
      | true =>
        rw [if_neg (by rw [masked_eq_zero,used]; decide)]
        exact ih (b + 1)
    · rw [if_neg inside,if_neg inside]
      rfl

theorem zerothBitOf_eq (fs : Mount) (bmap : Block) (d : Dev) : zerothBitOf fs.exs bmap = afterScan bmap (zerothBit fs bmap d) :=
  zerothBitLoop_eq bmap _ 0 d

/-- What `zeroth_bit` is for: it gives the lowest clear bit and sets it alone, or -1, without leaving the block. -/
structure TakesLowest (bmap : Block) (r : Except Fault (UInt32 × Block)) : Prop where
  takes : ∀ z < 8 * bsize, bit bmap.byte z = false → (∀ j < z, bit bmap.byte j = true) →
    ∃ bmap', r = .ok (UInt32.ofNat z,bmap') ∧ ∀ j < 8 * bsize, bit bmap'.byte j = (decide (j = z) || bit bmap.byte j)
  refuses : (∀ i < 8 * bsize, bit bmap.byte i = true) → r = .ok (0xFFFFFFFF,bmap)

section

variable {exs : Superblock} {bmap : Block} (bound : exs.blocksPerGroup ≤ 16384)

include bound in
theorem scan_length : (exs.blocksPerGroup * 8).toNat = 8 * exs.blocksPerGroup.toNat := by
  have small : exs.blocksPerGroup.toNat ≤ 16384 := UInt32.le_iff_toNat_le.mp bound
  rw [UInt32.toNat_mul,show (8 : UInt32).toNat = 8 from rfl]
  omega

include bound in
theorem zerothBitOf_scan (bmap : Block) :
    zerothBitOf exs bmap = afterScan bmap (zerothBitFrom bmap (8 * exs.blocksPerGroup.toNat) 0 (cold fun _ => bmap)) := by
  rw [zerothBitOf,scan_length bound,zerothBitLoop_eq]

include bound in
theorem lowest_of_full (full : ∀ i < 8 * bsize, bit bmap.byte i = true) :
    TakesLowest bmap (zerothBitOf exs bmap) ↔ exs.blocksPerGroup ≤ 2048 := by
  have none : ∀ z < 8 * bsize, bit bmap.byte z ≠ false := by
    intro z inside
    rw [full z inside]
    decide
  have after := zerothBitOf_scan bound bmap
  have scan := zerothBitFrom_cases bmap (8 * exs.blocksPerGroup.toNat) 0 (cold fun _ => bmap)
    (fun j less => absurd less (Nat.not_lt_zero j)) (Nat.zero_le _)
  rw [Nat.zero_add] at scan
  have limit : 8 * exs.blocksPerGroup.toNat ≤ 8 * bsize ↔ exs.blocksPerGroup ≤ 2048 := by
    rw [UInt32.le_iff_toNat_le,show (2048 : UInt32).toNat = bsize from rfl]
    omega
  rcases scan with ⟨z,first,-⟩ | ⟨-,⟨narrow,ended⟩ | ⟨wide,left⟩⟩
  · exact absurd first.clear (none z first.inside)
  · rw [ended] at after
    exact ⟨fun _ => limit.mp narrow,fun _ => ⟨fun z inside clear _ => absurd clear (none z inside),fun _ => after⟩⟩
  · refine ⟨?_,fun few => absurd (limit.mpr few) (by omega)⟩
    intro lowest
    have refused := lowest.refuses full
    rw [after,left] at refused
    contradiction

include bound in
theorem lowest_of_clear {c : Nat} (inside : c < 8 * bsize) (clear : bit bmap.byte c = false) :
    TakesLowest bmap (zerothBitOf exs bmap) ↔
      ∃ i < 8 * exs.blocksPerGroup.toNat, i < 8 * bsize ∧ bit bmap.byte i = false := by
  have notFull : ¬ ∀ i < 8 * bsize, bit bmap.byte i = true := by
    intro full
    rw [full c inside] at clear
    contradiction
  have after := zerothBitOf_scan bound bmap
  have scan := zerothBitFrom_cases bmap (8 * exs.blocksPerGroup.toNat) 0 (cold fun _ => bmap)
    (fun j less => absurd less (Nat.not_lt_zero j)) (Nat.zero_le _)
  rw [Nat.zero_add] at scan
  constructor
  · intro lowest
    obtain ⟨z,first⟩ := firstClear_of_clear inside inside clear
    obtain ⟨bmap',took,-⟩ := lowest.takes z first.inside first.clear first.least
    rcases scan with ⟨z',first',-⟩ | ⟨-,⟨-,ended⟩ | ⟨-,left⟩⟩
    · exact ⟨z',first'.scanned,first'.inside,first'.clear⟩
    · have value : UInt32.ofNat z ≠ 0xFFFFFFFF := by
        intro same
        have equal := congrArg UInt32.toNat same
        have := first.inside
        rw [UInt32.toNat_ofNat',show (0xFFFFFFFF : UInt32).toNat = 4294967295 from rfl] at equal
        rw [bsize] at this
        omega
      rw [after,ended,afterScan] at took
      exact absurd (Prod.mk.inj (Except.ok.inj took)).1.symm value
    · rw [after,left] at took
      contradiction
  · rintro ⟨i,scanned,inside,clear⟩
    obtain ⟨z,first,ran⟩ | ⟨full,-⟩ := scan
    · rw [ran] at after
      refine ⟨?_,fun full => absurd full notFull⟩
      intro z' inside' clear' least'
      have le : z' ≤ z := by
        by_contra later
        have used := least' z (by omega)
        rw [first.clear] at used
        contradiction
      obtain rfl := first.unique ⟨le.trans_lt first.scanned,inside',clear',least'⟩
      exact ⟨_,after,fun j _ => bit_setBit bmap _ j inside'⟩
    · have used := full i scanned inside
      rw [clear] at used
      contradiction

end

theorem zerothBitOf_lowest_iff (exs : Superblock) (bmap : Block) (bound : exs.blocksPerGroup ≤ 16384) :
    TakesLowest bmap (zerothBitOf exs bmap) ↔
      ((∃ i < 8 * bsize, bit bmap.byte i = false) → ∃ i < 8 * exs.blocksPerGroup.toNat, i < 8 * bsize ∧ bit bmap.byte i = false) ∧
      ((∀ i < 8 * bsize, bit bmap.byte i = true) → exs.blocksPerGroup ≤ 2048) := by
  by_cases full : ∀ i < 8 * bsize, bit bmap.byte i = true
  · have none : ¬ ∃ i < 8 * bsize, bit bmap.byte i = false := by
      rintro ⟨i,inside,clear⟩
      rw [full i inside] at clear
      contradiction
    rw [lowest_of_full bound full]
    exact ⟨fun few => ⟨fun some => absurd some none,fun _ => few⟩,fun both => both.2 full⟩
  · have some : ∃ i < 8 * bsize, bit bmap.byte i = false := by
      push Not at full
      obtain ⟨i,inside,clear⟩ := full
      exact ⟨i,inside,Bool.eq_false_of_not_eq_true clear⟩
    obtain ⟨c,inside,clear⟩ := some
    rw [lowest_of_clear bound inside clear]
    exact ⟨fun early => ⟨fun _ => early,fun all => absurd all full⟩,fun both => both.1 ⟨c,inside,clear⟩⟩

/-- A superblock as `mke2fs` writes it for blocks of 2048 bytes. -/
def wholeGroups : Superblock := ⟨16384,0,1,16384,2048,128,0⟩

/-- The first ten blocks are in use. -/
theorem zerothBitOf_lowest_tenth : TakesLowest ((Bytes.zero bsize).setU16 0 0x3FF) (zerothBitOf wholeGroups ((Bytes.zero bsize).setU16 0 0x3FF)) ∧
    ∃ bmap', zerothBitOf wholeGroups ((Bytes.zero bsize).setU16 0 0x3FF) = .ok (10,bmap') ∧ bit bmap'.byte 10 = true := by
  have clear : bit ((Bytes.zero bsize).setU16 0 0x3FF).byte 10 = false := by decide +kernel
  have used : ∀ j < 10, bit ((Bytes.zero bsize).setU16 0 0x3FF).byte j = true := by decide +kernel
  have lowest := (zerothBitOf_lowest_iff wholeGroups ((Bytes.zero bsize).setU16 0 0x3FF) (by decide)).mpr
    ⟨fun _ => ⟨10,by decide,by decide,clear⟩,fun full => absurd (full 10 (by decide)) (by rw [clear]; decide)⟩
  obtain ⟨bmap',took,bits⟩ := lowest.takes 10 (by decide) clear used
  exact ⟨lowest,bmap',took,by rw [bits 10 (by decide)]; rfl⟩

/-- A full bitmap sends the scan out of the block. -/
theorem zerothBitOf_leaves_block : ¬ ∀ (exs : Superblock) (bmap : Block), exs.blocksPerGroup ≤ 16384 →
    TakesLowest bmap (zerothBitOf exs bmap) := by
  intro every
  have few : wholeGroups.blocksPerGroup ≤ 2048 := (lowest_of_full (by decide) marks_full).mp (every wholeGroups (marks 255) (by decide))
  revert few
  decide

end Xv6Ext2.Ext2
