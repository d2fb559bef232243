import Xv6Ext2.Lib.Copy

/-! `memmove` of string.c and `memmove` of ulib.c. -/
namespace Xv6Ext2

open Lib Function

abbrev Flat := UInt32 → UInt8

/-- `memmove` of string.c. Both loops run `n` times; the first one moves its pointers before it copies. -/
def StringC.memmove (mem : Flat) (dst src n : UInt32) : Flat :=
  if src < dst ∧ dst < src + n then copyCells (· - 1) mem (dst + n - 1) (src + n - 1) n.toNat
  else copyCells (· + 1) mem dst src n.toNat

/-- `memmove` of ulib.c. Its length is an `int`; the loop does not run for a negative one. -/
def Ulib.memmove {ι : Type} [DecidableEq ι] [Add ι] [OfNat ι 1] (mem : ι → UInt8) (vdst vsrc : ι) (n : Int) : ι → UInt8 :=
  copyCells (· + 1) mem vdst vsrc n.toNat

namespace Memmove

/-- What `memmove` is for: the destination has the bytes that the source had, and nothing else changed. -/
structure Moved (mem : Flat) (dst src n : UInt32) (mem' : Flat) : Prop where
  copied : ∀ i < n, mem' (dst + i) = mem (src + i)
  kept : ∀ a, (∀ i < n, a ≠ dst + i) → mem' a = mem a

theorem iterate_up (p : UInt32) (i : Nat) : (· + 1)^[i] p = p + UInt32.ofNat i := by
  induction i with
  | zero => simp
  | succ i ih =>
    rw [iterate_succ_apply',ih,UInt32.ofNat_add,UInt32.add_assoc]
    rfl

theorem iterate_down (p : UInt32) (i : Nat) : (· - 1)^[i] p = p - UInt32.ofNat i := by
  induction i with
  | zero => simp
  | succ i ih =>
    rw [iterate_succ_apply',ih,UInt32.ofNat_add]
    grind

theorem toNat_up {p : UInt32} {i : Nat} (whole : p.toNat + i < 2 ^ 32) : ((· + 1)^[i] p).toNat = p.toNat + i := by
  rw [iterate_up,UInt32.toNat_add,UInt32.toNat_ofNat']
  omega

theorem down_eq_up (p n : UInt32) {i : Nat} (inside : i < n.toNat) :
    (· - 1)^[i] (p + n - 1) = (· + 1)^[n.toNat - 1 - i] p := by
  have offset : n - 1 - UInt32.ofNat i = UInt32.ofNat (n.toNat - 1 - i) := by
    have := n.toNat_lt
    apply UInt32.toNat_inj.mp
    simp only [UInt32.toNat_sub,UInt32.toNat_ofNat',UInt32.toNat_one]
    omega
  rw [iterate_down,iterate_up,← offset]
  grind

section

variable {mem : Flat} {dst src n : UInt32} (whole : src.toNat + n.toNat ≤ 2 ^ 32) (whole' : dst.toNat + n.toNat ≤ 2 ^ 32)

include whole' in
theorem up_distinct : ∀ i j, i < j → j < n.toNat → (· + 1)^[j] dst ≠ (· + 1)^[i] dst := by
  intro i j less bound same
  have equal := congrArg UInt32.toNat same
  rw [toNat_up (by omega),toNat_up (by omega)] at equal
  omega

include whole whole' in
theorem up_unwritten (apart : ¬ (src < dst ∧ dst.toNat < src.toNat + n.toNat)) :
    ∀ i j, i < j → j < n.toNat → (· + 1)^[j] src ≠ (· + 1)^[i] dst := by
  intro i j less bound same
  have equal := congrArg UInt32.toNat same
  rw [toNat_up (by omega),toNat_up (by omega)] at equal
  exact apart ⟨UInt32.lt_iff_toNat_lt.mpr (by omega),by omega⟩

theorem Moved.of_copy {mem' : Flat} (copied : ∀ i < n.toNat, mem' ((· + 1)^[i] dst) = mem ((· + 1)^[i] src))
    (kept : ∀ a, (∀ i < n.toNat, a ≠ (· + 1)^[i] dst) → mem' a = mem a) : Moved mem dst src n mem' := by
  constructor
  · intro i bound
    have here := copied i.toNat (UInt32.lt_iff_toNat_lt.mp bound)
    rwa [iterate_up,iterate_up,UInt32.ofNat_toNat] at here
  · intro a outside
    apply kept a
    intro i bound
    have := n.toNat_lt
    rw [iterate_up]
    apply outside
    rw [UInt32.lt_iff_toNat_lt,UInt32.toNat_ofNat']
    omega

include whole whole' in
theorem moved_up (apart : ¬ (src < dst ∧ dst.toNat < src.toNat + n.toNat)) :
    Moved mem dst src n (copyCells (· + 1) mem dst src n.toNat) := by
  apply Moved.of_copy
  · intro i bound
    exact copyCells_inside mem (up_distinct whole') (up_unwritten whole whole' apart) bound
  · intro a outside
    exact copyCells_outside _ _ _ _ _ outside

include whole' in
theorem moved_down (above : src < dst) : Moved mem dst src n (copyCells (· - 1) mem (dst + n - 1) (src + n - 1) n.toNat) := by
  have above := UInt32.lt_iff_toNat_lt.mp above
  have distinct : ∀ i j, i < j → j < n.toNat → (· - 1)^[j] (dst + n - 1) ≠ (· - 1)^[i] (dst + n - 1) := by
    intro i j less bound same
    rw [down_eq_up _ _ bound,down_eq_up _ _ (by omega)] at same
    exact up_distinct whole' (n.toNat - 1 - j) (n.toNat - 1 - i) (by omega) (by omega) same.symm
  have unwritten : ∀ i j, i < j → j < n.toNat → (· - 1)^[j] (src + n - 1) ≠ (· - 1)^[i] (dst + n - 1) := by
    intro i j less bound same
    rw [down_eq_up _ _ bound,down_eq_up _ _ (by omega)] at same
    have equal := congrArg UInt32.toNat same
    rw [toNat_up (by omega),toNat_up (by omega)] at equal
    omega
  apply Moved.of_copy
  · intro i bound
    have here := copyCells_inside mem distinct unwritten (i := n.toNat - 1 - i) (by omega)
    rwa [down_eq_up _ _ (by omega),down_eq_up _ _ (by omega),show n.toNat - 1 - (n.toNat - 1 - i) = i by omega] at here
  · intro a outside
    apply copyCells_outside
    intro i bound
    rw [down_eq_up _ _ bound]
    exact outside _ (by omega)

include whole whole' in
theorem kernel_moved : Moved mem dst src n (StringC.memmove mem dst src n) := by
  rw [StringC.memmove]
  split_ifs with overlap
  · exact moved_down whole' overlap.1
  · apply moved_up whole whole'
    rintro ⟨above,inside⟩
    have := UInt32.lt_iff_toNat_lt.mp above
    apply overlap
    refine ⟨above,UInt32.lt_iff_toNat_lt.mpr ?_⟩
    rw [UInt32.toNat_add,Nat.mod_eq_of_lt (by omega)]
    exact inside

end

def marked (src : UInt32) : Flat := fun a => if a = src then 1 else 0

theorem repeated_not_moved {dst src n : UInt32} (whole' : dst.toNat + n.toNat ≤ 2 ^ 32) (above : src < dst)
    (inside : dst.toNat < src.toNat + n.toNat) :
    ¬ Moved (marked src) dst src n (copyCells (· + 1) (marked src) dst src n.toNat) := by
  intro moved
  have above := UInt32.lt_iff_toNat_lt.mp above
  have := dst.toNat_lt
  have gap : (dst - src).toNat = dst.toNat - src.toNat := UInt32.toNat_sub_of_le _ _ (UInt32.le_iff_toNat_le.mpr above.le)
  have reached : (· + 1)^[(dst - src).toNat] src = dst := by
    rw [iterate_up,UInt32.ofNat_toNat]
    grind
  have again := copyCells_repeats (marked src) (by omega) (by omega) reached (up_distinct whole')
  have right := moved.copied (dst - src) (UInt32.lt_iff_toNat_lt.mpr (by omega))
  rw [iterate_up,UInt32.ofNat_toNat] at again
  rw [again] at right
  have there : src + (dst - src) = dst := by grind
  have differ : dst ≠ src := by
    rintro rfl
    omega
  rw [there] at right
  simp [marked,differ] at right

theorem rounds_int (n : UInt32) : n.toBitVec.toInt.toNat = if n.toNat < 2 ^ 31 then n.toNat else 0 := by
  have := n.toNat_lt
  rw [BitVec.toInt_eq_toNat_cond,UInt32.toNat_toBitVec]
  split_ifs <;> omega

theorem memmove_right_iff (dst src n : UInt32) (whole : src.toNat + n.toNat ≤ 2 ^ 32) (whole' : dst.toNat + n.toNat ≤ 2 ^ 32) :
    (∀ mem, Moved mem dst src n (StringC.memmove mem dst src n) ∧
      Moved mem dst src n (Ulib.memmove mem dst src n.toBitVec.toInt)) ↔
    (n.toNat < 2 ^ 31 ∨ dst = src) ∧ ¬ (src < dst ∧ dst.toNat < src.toNat + n.toNat) := by
  simp only [Ulib.memmove,rounds_int]
  by_cases int : n.toNat < 2 ^ 31
  · simp only [int,if_true,true_or,true_and]
    constructor
    · rintro moved ⟨above,inside⟩
      exact repeated_not_moved whole' above inside (moved (marked src)).2
    · intro apart mem
      exact ⟨kernel_moved whole whole',moved_up whole whole' apart⟩
  · simp only [int,if_false,false_or,copyCells]
    constructor
    · intro moved
      have first := (moved (marked src)).2.copied 0 (UInt32.lt_iff_toNat_lt.mpr (by rw [UInt32.toNat_zero]; omega))
      have same : dst = src := by simpa [marked] using first
      refine ⟨same,?_⟩
      rw [same]
      exact fun overlap => UInt32.lt_irrefl src overlap.1
    · rintro ⟨rfl,-⟩ mem
      exact ⟨kernel_moved whole whole',⟨fun _ _ => rfl,fun _ _ => rfl⟩⟩

theorem memmove_right_downwards : Moved (marked 12) 10 12 5 (StringC.memmove (marked 12) 10 12 5) ∧
    Moved (marked 12) 10 12 5 (Ulib.memmove (marked 12) 10 12 (5 : UInt32).toBitVec.toInt) :=
  (memmove_right_iff 10 12 5 (by decide) (by decide)).mpr (by decide) (marked 12)

/-- Three bytes `1 0 0`, of which the first two are moved up by one. -/
theorem ulib_memmove_smears : ¬ ∀ (mem : Flat) (dst src n : UInt32), src.toNat + n.toNat ≤ 2 ^ 32 → dst.toNat + n.toNat ≤ 2 ^ 32 →
    Moved mem dst src n (Ulib.memmove mem dst src n.toBitVec.toInt) := by
  intro every
  have last := (every (marked 0) 1 0 2 (by decide) (by decide)).copied 1 (by decide)
  revert last
  decide

end Memmove

end Xv6Ext2
