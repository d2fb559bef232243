import Xv6Ext2.Lib.CString

/-! Strings at an address of a memory, and the loops that move a pointer along them. -/
namespace Xv6Ext2.Lib

/-- The string `s` with the NUL behind it is in memory at `p`. -/
structure Stored (mem : Nat → UInt8) (p : Nat) (s : List UInt8) : Prop where
  plain : 0 ∉ s
  bytes : ∀ i ≤ s.length, mem (p + i) = cstring s i

theorem cstring_append_left (s t : List UInt8) {i : Nat} (inside : i < s.length) : cstring (s ++ t) i = cstring s i :=
  List.getD_append _ _ _ _ inside

theorem cstring_append_right (s t : List UInt8) {i : Nat} (behind : s.length ≤ i) : cstring (s ++ t) i = cstring t (i - s.length) :=
  List.getD_append_right _ _ _ _ behind

/-- `while(go(*p)) p++;`, if it ends within `fuel` rounds. -/
def advance (go : UInt8 → Bool) (mem : Nat → UInt8) : Nat → Nat → Option Nat
  | 0, _ => none
  | fuel + 1, p => if go (mem p) then advance go mem fuel (p + 1) else some p

section

variable {mem : Nat → UInt8} {p : Nat} {c : UInt8} {s : List UInt8}

theorem Stored.at_end (stored : Stored mem p []) : mem p = 0 := stored.bytes 0 (Nat.le_refl 0)

theorem Stored.head (stored : Stored mem p (c :: s)) : mem p = c := stored.bytes 0 (Nat.zero_le _)

theorem Stored.head_ne_zero (stored : Stored mem p (c :: s)) : c ≠ 0 := by
  rintro rfl
  exact stored.plain List.mem_cons_self

theorem Stored.tail (stored : Stored mem p (c :: s)) : Stored mem (p + 1) s where
  plain := fun zero => stored.plain (List.mem_cons_of_mem c zero)
  bytes := by
    intro i inside
    have byte := stored.bytes (i + 1) (Nat.succ_le_succ inside)
    rwa [cstring_cons_succ,Nat.add_comm i 1,← Nat.add_assoc] at byte

theorem Stored.rest {front back : List UInt8} (stored : Stored mem p (front ++ back)) : Stored mem (p + front.length) back := by
  induction front generalizing p with
  | nil => exact stored
  | cons c front ih =>
    have rest := ih stored.tail
    rwa [Nat.add_assoc,Nat.add_comm 1] at rest

theorem advance_eq {go : UInt8 → Bool} (stops : go 0 = false) (stored : Stored mem p s) {fuel : Nat} (enough : s.length < fuel) :
    advance go mem fuel p = some (p + (s.takeWhile go).length) := by
  obtain ⟨fuel,rfl⟩ : ∃ k, fuel = k + 1 := ⟨fuel - 1,by omega⟩
  induction s generalizing p fuel with
  | nil => simp [advance,stored.at_end,stops]
  | cons c s ih =>
    rw [advance,stored.head]
    cases goes : go c with
    | false => simp [goes]
    | true =>
      rw [List.length_cons] at enough
      obtain ⟨fuel,rfl⟩ : ∃ k, fuel = k + 1 := ⟨fuel - 1,by omega⟩
      rw [if_pos rfl,ih stored.tail _ (by omega),List.takeWhile_cons,goes,if_pos rfl,List.length_cons]
      congr 1
      omega

/-- Where the loop ends, the rest of the string begins. -/
theorem Stored.advanced (go : UInt8 → Bool) (stored : Stored mem p s) :
    Stored mem (p + (s.takeWhile go).length) (s.dropWhile go) := by
  apply Stored.rest
  rw [List.takeWhile_append_dropWhile]
  exact stored

end

end Xv6Ext2.Lib
