import Mathlib

/-! Masks and shifts of 32-bit words as arithmetic on their values. A mask of the low bits is a remainder, its complement
rounds down, and joining a rounded word with low bits is a sum. -/
namespace Xv6Ext2.Lib

theorem toNat_mask (x : UInt32) (k : Nat) (m : UInt32) (ones : m.toNat = 2 ^ k - 1) :
    (x &&& m).toNat = x.toNat % 2 ^ k := by
  rw [UInt32.toNat_and,ones,Nat.and_two_pow_sub_one_eq_mod]

/-- Clearing the low bits rounds down. -/
theorem toNat_clear (x : UInt32) (k : Nat) (small : k ≤ 32) (m : UInt32) (ones : m.toNat = 2 ^ 32 - 2 ^ k) :
    (x &&& m).toNat = x.toNat / 2 ^ k * 2 ^ k := by
  rw [UInt32.toNat_and,ones]
  apply Nat.eq_of_testBit_eq
  intro i
  have bound := x.toNat_lt
  have mask : 2 ^ 32 - 2 ^ k = (2 ^ (32 - k) - 1) * 2 ^ k := by
    rw [Nat.sub_mul,← Nat.pow_add,Nat.sub_add_cancel small,Nat.one_mul]
  rw [mask,Nat.testBit_and,Nat.testBit_mul_two_pow,Nat.testBit_mul_two_pow,Nat.testBit_div_two_pow,Nat.testBit_two_pow_sub_one]
  by_cases high : k ≤ i
  · by_cases inside : i - k < 32 - k
    · simp [high,inside]
    · have large : 2 ^ 32 ≤ 2 ^ i := Nat.pow_le_pow_right (by decide) (by omega)
      have zero : x.toNat.testBit i = false := Nat.testBit_lt_two_pow (bound.trans_le large)
      simp [high,zero]
  · simp [high]

/-- Joining low bits to a word that has none of them is a sum. -/
theorem toNat_or_low (x y : UInt32) (k : Nat) (rounded : x.toNat % 2 ^ k = 0) (low : y.toNat < 2 ^ k) :
    (x ||| y).toNat = x.toNat + y.toNat := by
  rw [UInt32.toNat_or]
  obtain ⟨q,value⟩ := Nat.dvd_of_mod_eq_zero rounded
  rw [value,Nat.two_pow_add_eq_or_of_lt low]

end Xv6Ext2.Lib
