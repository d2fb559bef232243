import Mathlib

/-! A circular buffer with free-running counters. The counters are 32-bit numbers that are taken modulo the
size of the buffer where it is accessed, so the size divides 2^32. -/
namespace Xv6Ext2.Lib
open Function

section

variable {α : Type} (n : Nat) (data : Nat → α)

/-- What lies between the counters `r` and `w`, oldest first. -/
def window (r w : UInt32) : List α := (List.range (w - r).toNat).map fun i => data ((r.toNat + i) % n)

@[simp] theorem window_self (r : UInt32) : window n data r r = [] := by simp [window]

theorem length_window (r w : UInt32) : (window n data r w).length = (w - r).toNat := by simp [window]

end

section

variable {α : Type} {n : Nat} {data : Nat → α} {r w e : UInt32}

theorem toNat_sub_succ (room : (w - r).toNat + 1 < 2 ^ 32) : (w + 1 - r).toNat = (w - r).toNat + 1 := by
  have same : w + 1 - r = (w - r) + 1 := by grind
  rw [same,UInt32.toNat_add]
  exact Nat.mod_eq_of_lt room

theorem toNat_sub_pos (apart : r ≠ w) : 0 < (w - r).toNat := by
  rw [Nat.pos_iff_ne_zero]
  intro zero
  have same : w - r = 0 := UInt32.toNat_inj.mp zero
  exact apart (sub_eq_zero.mp same).symm

theorem toNat_succ_sub (apart : r ≠ w) : (w - r).toNat = (w - (r + 1)).toNat + 1 := by
  have same : w - (r + 1) = (w - r) - 1 := by grind
  have positive := toNat_sub_pos apart
  rw [same]
  generalize w - r = k at *
  have bound := k.toNat_lt
  rw [UInt32.toNat_sub]
  change _ = (2 ^ 32 - 1 + k.toNat) % 2 ^ 32 + 1
  omega

theorem toNat_pred_sub (apart : r ≠ w) : (w - r).toNat = (w - 1 - r).toNat + 1 := by
  have same : w - 1 - r = w - (r + 1) := by grind
  rw [same]
  exact toNat_succ_sub apart

/-- The slot of the counter `i` steps after `r`. -/
theorem slot_add (divides : n ∣ 2 ^ 32) (r : UInt32) (i : Nat) : (r + UInt32.ofNat i).toNat % n = (r.toNat + i) % n := by
  rw [UInt32.toNat_add,UInt32.toNat_ofNat',Nat.mod_mod_of_dvd _ divides,Nat.add_mod,Nat.mod_mod_of_dvd _ divides,← Nat.add_mod]

/-- The slot of `w`, counted from `r`. -/
theorem slot_end (divides : n ∣ 2 ^ 32) (r w : UInt32) : w.toNat % n = (r.toNat + (w - r).toNat) % n := by
  rw [← slot_add divides,UInt32.ofNat_toNat]
  congr 2
  grind

theorem window_succ (divides : n ∣ 2 ^ 32) (room : (w - r).toNat + 1 < 2 ^ 32) :
    window n data r (w + 1) = window n data r w ++ [data (w.toNat % n)] := by
  rw [window,toNat_sub_succ room,List.range_succ,List.map_append,List.map_singleton,← slot_end divides]
  rfl

/-- An element that is stored at the end of a buffer with room for it. -/
theorem window_put (divides : n ∣ 2 ^ 32) (small : n < 2 ^ 32) (room : (w - r).toNat < n) (c : α) :
    window n (update data (w.toNat % n) c) r (w + 1) = window n data r w ++ [c] := by
  rw [window_succ divides (by omega),update_self]
  congr 1
  refine List.map_congr_left fun i member => update_of_ne ?_ _ _
  -- fewer than `n` steps apart, so the slots differ
  have before := List.mem_range.mp member
  rw [slot_end divides r w]
  intro same
  have := Nat.ModEq.add_left_cancel' r.toNat same
  rw [Nat.ModEq,Nat.mod_eq_of_lt (before.trans room),Nat.mod_eq_of_lt room] at this
  omega

/-- The oldest element. -/
theorem window_take (divides : n ∣ 2 ^ 32) (apart : r ≠ w) :
    window n data r w = data (r.toNat % n) :: window n data (r + 1) w := by
  rw [window,toNat_succ_sub apart,List.range_succ_eq_map,List.map_cons,List.map_map,Nat.add_zero,window]
  congr 1
  refine List.map_congr_left fun i _ => ?_
  have next := slot_add divides r 1
  simp only [comp_apply]
  rw [Nat.add_mod (r + 1).toNat i n]
  change ((r + 1).toNat % n) = _ at next
  rw [next,← Nat.add_mod]
  congr 2
  omega

end

end Xv6Ext2.Lib
