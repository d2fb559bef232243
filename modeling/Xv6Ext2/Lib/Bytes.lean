import Mathlib

/-! Fixed-length byte strings and little-endian fields.
A byte string is read through `byte`, which is total in its index, and changed through
`patch`, which is the effect of one bounded copy. Multi-byte fields are decoded from any
byte-indexed memory, so that records in a buffer and records on a stack share the laws. -/
namespace Xv6Ext2.Lib

def Bytes (n : Nat) : Type := Fin n → UInt8

namespace Bytes

def byte {n : Nat} (b : Bytes n) (i : Nat) : UInt8 := if inside : i < n then b ⟨i,inside⟩ else 0

/-- Copy `len` bytes of `src` to offset `off`; what would fall outside the string is dropped. -/
def patch {n : Nat} (b : Bytes n) (off len : Nat) (src : Nat → UInt8) : Bytes n :=
  fun i => if off ≤ i.val ∧ i.val < off + len then src (i.val - off) else b i

def zero (n : Nat) : Bytes n := fun _ => 0

@[simp] theorem byte_zero (n i : Nat) : (zero n).byte i = 0 := by simp [byte,zero]

theorem byte_patch {n : Nat} (b : Bytes n) (off len : Nat) (src : Nat → UInt8) (i : Nat)
    (inside : i < n) :
    (b.patch off len src).byte i = if off ≤ i ∧ i < off + len then src (i - off) else b.byte i := by
  simp [byte,patch,inside]

theorem byte_patch_inside {n : Nat} (b : Bytes n) (off len : Nat) (src : Nat → UInt8) (k : Nat)
    (bound : k < len) (fits : off + len ≤ n) : (b.patch off len src).byte (off + k) = src k := by
  rw [byte_patch _ _ _ _ _ (by omega),if_pos (by omega),Nat.add_sub_cancel_left]

theorem byte_patch_outside {n : Nat} (b : Bytes n) (off len : Nat) (src : Nat → UInt8) (i : Nat)
    (outside : i < off ∨ off + len ≤ i) : (b.patch off len src).byte i = b.byte i := by
  by_cases inside : i < n
  · rw [byte_patch _ _ _ _ _ inside,if_neg (by omega)]
  · simp [byte,inside]

@[ext] theorem ext_byte {n : Nat} (a b : Bytes n) (same : ∀ i < n, a.byte i = b.byte i) : a = b := by
  funext i
  simpa [byte] using same i.val i.isLt

end Bytes

/-- Value of the first `k` bytes of a memory, least significant first. -/
def leDecode : Nat → (Nat → UInt8) → Nat
  | 0, _ => 0
  | k + 1, f => (f 0).toNat + 256 * leDecode k (fun i => f (i + 1))

def leByte (v i : Nat) : UInt8 := UInt8.ofNat (v / 256 ^ i)

theorem leDecode_congr (k : Nat) (f g : Nat → UInt8) (same : ∀ i < k, f i = g i) :
    leDecode k f = leDecode k g := by
  induction k generalizing f g with
  | zero => rfl
  | succ k ih =>
    simp only [leDecode]
    rw [same 0 (by omega),ih _ _ (fun i bound => same (i + 1) (by omega))]

theorem leDecode_zero (k : Nat) : leDecode k (fun _ => 0) = 0 := by
  induction k with
  | zero => rfl
  | succ k ih => simp [leDecode,ih]

theorem leByte_succ (v i : Nat) : leByte v (i + 1) = leByte (v / 256) i := by
  simp only [leByte,Nat.div_div_eq_div_mul,Nat.pow_succ,Nat.mul_comm]

theorem leDecode_leByte (k v : Nat) : leDecode k (leByte v) = v % 256 ^ k := by
  induction k generalizing v with
  | zero => simp [leDecode,Nat.mod_one]
  | succ k ih =>
    have shifted : (fun i => leByte v (i + 1)) = leByte (v / 256) := funext (leByte_succ v)
    have low : (leByte v 0).toNat = v % 256 := by simp [leByte]
    rw [leDecode,shifted,ih,low,Nat.pow_succ,Nat.mul_comm (256 ^ k) 256,Nat.mod_mul]

def u16 (f : Nat → UInt8) (off : Nat) : UInt16 := UInt16.ofNat (leDecode 2 (fun i => f (off + i)))

def u32 (f : Nat → UInt8) (off : Nat) : UInt32 := UInt32.ofNat (leDecode 4 (fun i => f (off + i)))

theorem u16_congr (f g : Nat → UInt8) (off off' : Nat) (same : ∀ i < 2, f (off + i) = g (off' + i)) :
    u16 f off = u16 g off' := by
  rw [u16,u16,leDecode_congr 2 _ _ same]

theorem u32_congr (f g : Nat → UInt8) (off off' : Nat) (same : ∀ i < 4, f (off + i) = g (off' + i)) :
    u32 f off = u32 g off' := by
  rw [u32,u32,leDecode_congr 4 _ _ same]

theorem u16_zero (off : Nat) : u16 (fun _ => 0) off = 0 := by rw [u16,leDecode_zero]; rfl

theorem u32_zero (off : Nat) : u32 (fun _ => 0) off = 0 := by rw [u32,leDecode_zero]; rfl

theorem u16_stored (f : Nat → UInt8) (off : Nat) (v : UInt16)
    (stored : ∀ i < 2, f (off + i) = leByte v.toNat i) : u16 f off = v := by
  rw [u16,leDecode_congr 2 _ _ stored,leDecode_leByte]
  apply UInt16.toNat_inj.mp
  have := v.toNat_lt
  simp

theorem u32_stored (f : Nat → UInt8) (off : Nat) (v : UInt32)
    (stored : ∀ i < 4, f (off + i) = leByte v.toNat i) : u32 f off = v := by
  rw [u32,leDecode_congr 4 _ _ stored,leDecode_leByte]
  apply UInt32.toNat_inj.mp
  have := v.toNat_lt
  simp

namespace Bytes

def setU32 {n : Nat} (b : Bytes n) (off : Nat) (v : UInt32) : Bytes n := b.patch off 4 (leByte v.toNat)

theorem u32_setU32 {n : Nat} (b : Bytes n) (off : Nat) (v : UInt32) (fits : off + 4 ≤ n) :
    u32 (b.setU32 off v).byte off = v :=
  u32_stored _ _ _ (fun i bound => byte_patch_inside _ _ _ _ i bound fits)

theorem u32_patch_outside {n : Nat} (b : Bytes n) (off len : Nat) (src : Nat → UInt8) (pos : Nat)
    (outside : pos + 4 ≤ off ∨ off + len ≤ pos) : u32 (b.patch off len src).byte pos = u32 b.byte pos :=
  u32_congr _ _ _ _ (fun i bound => byte_patch_outside _ _ _ _ _ (by omega))

theorem u32_setU32_other {n : Nat} (b : Bytes n) (off pos : Nat) (v : UInt32)
    (outside : pos + 4 ≤ off ∨ off + 4 ≤ pos) : u32 (b.setU32 off v).byte pos = u32 b.byte pos :=
  u32_patch_outside _ _ _ _ _ outside

/-- Words of an array of 32-bit fields do not interfere. -/
theorem u32_setU32_word {n : Nat} (b : Bytes n) (i j : Nat) (v : UInt32) (fits : 4 * i + 4 ≤ n) :
    u32 (b.setU32 (4 * i) v).byte (4 * j) = if j = i then v else u32 b.byte (4 * j) := by
  split_ifs with same
  · rw [same,u32_setU32 _ _ _ fits]
  · exact u32_setU32_other _ _ _ _ (by omega)

theorem u32_zeroed (n off : Nat) : u32 (zero n).byte off = 0 := by
  have blank : (zero n).byte = fun _ => 0 := funext (byte_zero n)
  rw [blank,u32_zero]

end Bytes

theorem Bytes.u16_patch_outside {n : Nat} (b : Bytes n) (off len : Nat) (src : Nat → UInt8) (pos : Nat)
    (outside : pos + 2 ≤ off ∨ off + len ≤ pos) : u16 (b.patch off len src).byte pos = u16 b.byte pos :=
  u16_congr _ _ _ _ (fun i bound => byte_patch_outside _ _ _ _ _ (by omega))

def Bytes.setU16 {n : Nat} (b : Bytes n) (off : Nat) (v : UInt16) : Bytes n := b.patch off 2 (leByte v.toNat)

theorem Bytes.u16_setU16 {n : Nat} (b : Bytes n) (off : Nat) (v : UInt16) (fits : off + 2 ≤ n) :
    u16 (b.setU16 off v).byte off = v :=
  u16_stored _ _ _ (fun i bound => byte_patch_inside _ _ _ _ i bound fits)

/-- Copy `len` bytes of `src` to address `off` of a memory. -/
def poke (mem : Nat → UInt8) (off len : Nat) (src : Nat → UInt8) : Nat → UInt8 :=
  fun i => if off ≤ i ∧ i < off + len then src (i - off) else mem i

theorem poke_inside (mem : Nat → UInt8) (off len : Nat) (src : Nat → UInt8) {i : Nat} (bound : i < len) :
    poke mem off len src (off + i) = src i := by
  rw [poke,if_pos (by omega),Nat.add_sub_cancel_left]

theorem poke_outside (mem : Nat → UInt8) (off len : Nat) (src : Nat → UInt8) {i : Nat}
    (outside : i < off ∨ off + len ≤ i) : poke mem off len src i = mem i := if_neg (by omega)

theorem poke_nothing (mem : Nat → UInt8) (off : Nat) (src : Nat → UInt8) : poke mem off 0 src = mem := by
  funext i
  rw [poke,if_neg (by omega)]

/-- Two copies in a row, the second right behind the first, make one. -/
theorem poke_poke (mem : Nat → UInt8) (off a b : Nat) (f g src : Nat → UInt8) (first : ∀ i < a, f i = src i)
    (second : ∀ i < b, g i = src (a + i)) :
    poke (poke mem off a f) (off + a) b g = poke mem off (a + b) src := by
  funext i
  simp only [poke]
  by_cases late : off + a ≤ i ∧ i < off + a + b
  · rw [if_pos late,if_pos (by omega),second _ (by omega)]
    congr 1
    omega
  · rw [if_neg late]
    by_cases early : off ≤ i ∧ i < off + a
    · rw [if_pos early,if_pos (by omega),first _ (by omega)]
    · rw [if_neg early,if_neg (by omega)]

/-- Bit `i` of a bitmap, counted from the least significant bit of its first byte. -/
def bit (f : Nat → UInt8) (i : Nat) : Bool := (f (i / 8)).toNat.testBit (i % 8)

theorem bit_congr (f g : Nat → UInt8) (i : Nat) (same : f (i / 8) = g (i / 8)) : bit f i = bit g i := by
  rw [bit,bit,same]

theorem bit_inside {n : Nat} {b : Bytes n} {i : Nat} (marked : bit b.byte i = true) : i < 8 * n := by
  by_contra outside
  rw [bit,Bytes.byte,dif_neg (by omega)] at marked
  simp at marked

def Bytes.setBit {n : Nat} (b : Bytes n) (i : Nat) : Bytes n :=
  b.patch (i / 8) 1 (fun _ => b.byte (i / 8) ||| UInt8.ofNat (2 ^ (i % 8)))

theorem bit_patch_one {n : Nat} (b : Bytes n) (v : UInt8) (i j : Nat) (inside : i < 8 * n) :
    bit (b.patch (i / 8) 1 (fun _ => v)).byte j = if j / 8 = i / 8 then v.toNat.testBit (j % 8) else bit b.byte j := by
  split_ifs with here
  · rw [bit,here,Bytes.byte_patch _ _ _ _ _ (by omega),if_pos (by omega)]
  · exact bit_congr _ b.byte j (Bytes.byte_patch_outside _ _ _ _ _ (by omega))

theorem bit_setBit {n : Nat} (b : Bytes n) (i j : Nat) (inside : i < 8 * n) :
    bit (b.setBit i).byte j = (decide (j = i) || bit b.byte j) := by
  rw [Bytes.setBit,bit_patch_one _ _ _ _ inside]
  split_ifs with here
  · have mask : (UInt8.ofNat (2 ^ (i % 8))).toNat = 2 ^ (i % 8) := by
      have small : 2 ^ (i % 8) < 2 ^ 8 := Nat.pow_lt_pow_right (by decide) (by omega)
      simpa using Nat.mod_eq_of_lt small
    have same : i % 8 = j % 8 ↔ j = i := by omega
    rw [UInt8.toNat_or,Nat.testBit_or,mask,Nat.testBit_two_pow,bit,here,Bool.or_comm]
    simp only [same]
  · rw [decide_eq_false fun same => here (by rw [same]),Bool.false_or]

def Bytes.clearBit {n : Nat} (b : Bytes n) (i : Nat) : Bytes n :=
  b.patch (i / 8) 1 (fun _ => b.byte (i / 8) &&& ~~~UInt8.ofNat (2 ^ (i % 8)))

private theorem testBit_complement : ∀ k < 8, ∀ l < 8,
    (~~~UInt8.ofNat (2 ^ k)).toNat.testBit l = !decide (k = l) := by
  decide

theorem bit_clearBit {n : Nat} (b : Bytes n) (i j : Nat) (inside : i < 8 * n) :
    bit (b.clearBit i).byte j = (!decide (j = i) && bit b.byte j) := by
  rw [Bytes.clearBit,bit_patch_one _ _ _ _ inside]
  split_ifs with here
  · have same : i % 8 = j % 8 ↔ j = i := by omega
    rw [UInt8.toNat_and,Nat.testBit_and,testBit_complement _ (by omega) _ (by omega),bit,here,Bool.and_comm]
    simp only [same]
  · rw [decide_eq_false fun same => here (by rw [same]),Bool.not_false,Bool.true_and]

theorem Bytes.ext_bit {n : Nat} {a b : Bytes n} (same : ∀ i < 8 * n, bit a.byte i = bit b.byte i) : a = b := by
  refine Bytes.ext_byte a b fun i inside => UInt8.toNat_inj.mp (Nat.eq_of_testBit_eq fun k => ?_)
  by_cases low : k < 8
  · have here := same (8 * i + k) (by omega)
    have place : (8 * i + k) / 8 = i ∧ (8 * i + k) % 8 = k := by omega
    rw [bit,bit,place.1,place.2] at here
    exact here
  · have large : 2 ^ 8 ≤ 2 ^ k := Nat.pow_le_pow_right (by decide) (by omega)
    rw [Nat.testBit_lt_two_pow ((a.byte i).toNat_lt.trans_le large),Nat.testBit_lt_two_pow ((b.byte i).toNat_lt.trans_le large)]

theorem Bytes.clearBit_setBit {n : Nat} {b : Bytes n} {i : Nat} (inside : i < 8 * n) (clear : bit b.byte i = false) :
    (b.setBit i).clearBit i = b := by
  refine Bytes.ext_bit fun j _ => ?_
  rw [bit_clearBit _ _ _ inside,bit_setBit _ _ _ inside]
  by_cases here : j = i
  · simp [here,clear]
  · simp [here]

end Xv6Ext2.Lib
