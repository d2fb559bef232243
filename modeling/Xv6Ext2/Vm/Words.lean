import Xv6Ext2.Lib.Masks
import Xv6Ext2.Vm.Model

/-! Addresses and page table entries as numbers: the page of an address is its quotient by the size of a page, and an entry
is the address of a page with twelve bits of flags. -/
namespace Xv6Ext2.Vm
open Lib

theorem toNat_pdx (va : UInt32) : (pdx va).toNat = va.toNat / 4096 / 1024 := by
  have bound := va.toNat_lt
  have shifted : (va >>> 22).toNat = va.toNat / 2 ^ 22 := by
    rw [UInt32.toNat_shiftRight,Nat.shiftRight_eq_div_pow]
    rfl
  rw [pdx,toNat_mask _ 10 0x3FF rfl,shifted]
  omega

theorem toNat_ptx (va : UInt32) : (ptx va).toNat = va.toNat / 4096 % 1024 := by
  have shifted : (va >>> 12).toNat = va.toNat / 2 ^ 12 := by
    rw [UInt32.toNat_shiftRight,Nat.shiftRight_eq_div_pow]
    rfl
  rw [ptx,toNat_mask _ 10 0x3FF rfl,shifted]
  rfl

theorem toNat_pgRoundDown (a : UInt32) : (pgRoundDown a).toNat = a.toNat / 4096 * 4096 :=
  toNat_clear a 12 (by decide) (~~~(pgSize - 1)) rfl

theorem toNat_pgRoundUp {sz : UInt32} (small : sz.toNat + 4095 < 2 ^ 32) :
    (pgRoundUp sz).toNat = (sz.toNat + 4095) / 4096 * 4096 := by
  have sum : (sz + pgSize - 1).toNat = sz.toNat + 4095 := by
    have size : pgSize.toNat = 4096 := rfl
    have one : (1 : UInt32).toNat = 1 := rfl
    rw [UInt32.toNat_sub,UInt32.toNat_add,size,one]
    omega
  rw [pgRoundUp,toNat_clear _ 12 (by decide) _ rfl,sum]
  rfl

theorem toNat_pteAddr (w : UInt32) : (pteAddr w).toNat = w.toNat / 4096 * 4096 :=
  toNat_clear w 12 (by decide) (~~~0xFFF) rfl

theorem toNat_pteFlags (w : UInt32) : (pteFlags w).toNat = w.toNat % 4096 := toNat_mask w 12 0xFFF rfl

theorem toNat_pgAddr_next {a : UInt32} (low : a.toNat / 4096 / 1024 < 1023) :
    (pgAddr (pdx a + 1) 0 0 - pgSize + pgSize).toNat = (a.toNat / 4096 / 1024 + 1) * 4194304 := by
  have index : (pdx a + 1).toNat = a.toNat / 4096 / 1024 + 1 := by
    rw [UInt32.toNat_add,toNat_pdx]
    exact Nat.mod_eq_of_lt (by simp; omega)
  have plain : pgAddr (pdx a + 1) 0 0 = (pdx a + 1) <<< 22 := by
    simp [pgAddr]
  rw [UInt32.sub_add_cancel,plain,UInt32.toNat_shiftLeft,index,Nat.shiftLeft_eq]
  exact Nat.mod_eq_of_lt (by simp; omega)

theorem toNat_next {a : UInt32} (low : a.toNat + 4096 < 2 ^ 32) : (a + pgSize).toNat = a.toNat + 4096 := by
  rw [UInt32.toNat_add]
  exact Nat.mod_eq_of_lt low

theorem present_iff (w : UInt32) : Present w ↔ w.toNat % 2 = 1 := by
  have masked : (w &&& pteP).toNat = w.toNat % 2 := toNat_mask w 1 pteP rfl
  rw [Present,ne_eq,← UInt32.toNat_inj,masked]
  simp

theorem not_present_zero : ¬Present 0 := by decide

theorem toNat_entry {f perm : UInt32} (aligned : f.toNat % 4096 = 0) (flags : perm.toNat < 4096) :
    (f ||| perm ||| pteP).toNat = f.toNat + (perm ||| pteP).toNat := by
  have low : (perm ||| pteP).toNat < 2 ^ 12 := by
    rw [UInt32.toNat_or]
    exact Nat.or_lt_two_pow flags (by decide)
  rw [UInt32.or_assoc]
  exact toNat_or_low f (perm ||| pteP) 12 aligned low

theorem pteAddr_entry {f perm : UInt32} (aligned : f.toNat % 4096 = 0) (flags : perm.toNat < 4096) :
    pteAddr (f ||| perm ||| pteP) = f := by
  have low : (perm ||| pteP).toNat < 2 ^ 12 := by
    rw [UInt32.toNat_or]
    exact Nat.or_lt_two_pow flags (by decide)
  apply UInt32.toNat_inj.mp
  rw [toNat_pteAddr,toNat_entry aligned flags]
  omega

theorem pteFlags_entry {f perm : UInt32} (aligned : f.toNat % 4096 = 0) (flags : perm.toNat < 4096) :
    pteFlags (f ||| perm ||| pteP) = perm ||| pteP := by
  have low : (perm ||| pteP).toNat < 2 ^ 12 := by
    rw [UInt32.toNat_or]
    exact Nat.or_lt_two_pow flags (by decide)
  apply UInt32.toNat_inj.mp
  rw [toNat_pteFlags,toNat_entry aligned flags]
  omega

theorem present_entry (f perm : UInt32) : Present (f ||| perm ||| pteP) := by
  rw [present_iff,UInt32.toNat_or,Nat.or_mod_two_eq_one]
  exact .inr rfl

theorem pteFlags_present {w : UInt32} (present : Present w) : pteFlags w ||| pteP = pteFlags w := by
  rw [present_iff] at present
  apply UInt32.toNat_inj.mp
  have one : pteP.toNat = 1 := rfl
  rw [UInt32.toNat_or,toNat_pteFlags,one]
  apply Nat.eq_of_testBit_eq
  intro i
  rw [Nat.testBit_or]
  cases i with
  | zero =>
    rw [Nat.testBit_zero,Nat.testBit_zero]
    simp
    omega
  | succ i => simp [Nat.testBit_succ]

end Xv6Ext2.Vm
