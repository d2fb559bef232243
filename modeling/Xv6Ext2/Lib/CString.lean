import Mathlib
import Xv6Ext2.Lib.Bytes

/-! Strings that end with a zero byte, and the functions of `string.c` on them. Memory is a function
from addresses to bytes; a pointer that is advanced is the memory shifted by one. -/
namespace Xv6Ext2.Lib
open Function

/-- `strncmp(p, q, n)` -/
def strncmp (p q : Nat → UInt8) : Nat → Int
  | 0 => 0
  | n + 1 =>
    if p 0 ≠ 0 ∧ p 0 = q 0 then strncmp (fun i => p (i + 1)) (fun i => q (i + 1)) n
    else (p 0).toNat - (q 0).toNat

/-- `strncpy(s, t, n)` with `s` an address of `mem`. -/
def strncpy (mem : Nat → UInt8) (s : Nat) (t : Nat → UInt8) : Nat → Nat → UInt8
  | 0 => mem
  | n + 1 =>
    if t 0 = 0 then poke mem s (n + 1) (fun _ => 0)
    else strncpy (update mem s (t 0)) (s + 1) (fun i => t (i + 1)) n

/-- `strlen(s)`, if the string ends within `bound` bytes. -/
def strlen (s : Nat → UInt8) : Nat → Option Nat
  | 0 => none
  | bound + 1 => if s 0 = 0 then some 0 else (strlen (fun i => s (i + 1)) bound).map (· + 1)

/-- The string at `p`, cut off behind `n` bytes. -/
def cname (p : Nat → UInt8) : Nat → List UInt8
  | 0 => []
  | n + 1 => if p 0 = 0 then [] else p 0 :: cname (fun i => p (i + 1)) n

/-- Memory that nothing was stored in, as the stack of a call is. -/
def garbage : Nat → UInt8 := fun _ => 0xff

/-- The bytes of a string in memory. -/
def cstring (name : List UInt8) : Nat → UInt8 := fun i => name.getD i 0

@[simp] theorem cstring_nil (i : Nat) : cstring [] i = 0 := rfl

@[simp] theorem cstring_cons_zero (c : UInt8) (name : List UInt8) : cstring (c :: name) 0 = c := rfl

@[simp] theorem cstring_cons_succ (c : UInt8) (name : List UInt8) (i : Nat) :
    cstring (c :: name) (i + 1) = cstring name i := rfl

theorem cstring_end (name : List UInt8) {i : Nat} (behind : name.length ≤ i) : cstring name i = 0 :=
  List.getD_eq_default _ _ behind

theorem cstring_ne_zero {name : List UInt8} (plain : 0 ∉ name) {i : Nat} (inside : i < name.length) :
    cstring name i ≠ 0 := by
  rw [cstring,List.getD_eq_getElem _ _ inside]
  intro zero
  exact plain (zero ▸ List.getElem_mem inside)

theorem strncpy_eq_poke (mem : Nat → UInt8) (s : Nat) (t : Nat → UInt8) (n : Nat)
    (ends : ∀ j k, j ≤ k → k < n → t j = 0 → t k = 0) : strncpy mem s t n = poke mem s n t := by
  induction n generalizing mem s t with
  | zero => rw [strncpy,poke_nothing]
  | succ n ih =>
    rw [strncpy]
    split_ifs with zero
    · funext i
      simp only [poke]
      split_ifs with hit
      · exact (ends 0 _ (Nat.zero_le _) (by omega) zero).symm
      · rfl
    · rw [ih _ _ _ (fun j k le bound => ends (j + 1) (k + 1) (by omega) (by omega))]
      funext i
      simp only [poke,update_apply]
      by_cases here : i = s
      · rw [if_neg (by omega),if_pos here,if_pos (by omega),here,Nat.sub_self]
      · by_cases hit : s ≤ i ∧ i < s + (n + 1)
        · rw [if_pos (by omega),if_pos hit]
          congr 1
          omega
        · rw [if_neg (by omega),if_neg here,if_neg hit]

theorem strlen_eq {name : List UInt8} (plain : 0 ∉ name) {s : Nat → UInt8}
    (stored : ∀ i ≤ name.length, s i = cstring name i) {bound : Nat} (short : name.length < bound) :
    strlen s bound = some name.length := by
  induction name generalizing s bound with
  | nil =>
    obtain ⟨bound,rfl⟩ : ∃ k, bound = k + 1 := ⟨bound - 1,by omega⟩
    have zero : s 0 = 0 := stored 0 (Nat.le_refl _)
    rw [strlen,if_pos zero]
    rfl
  | cons a name ih =>
    obtain ⟨bound,rfl⟩ : ∃ k, bound = k + 1 := ⟨bound - 1,by omega⟩
    have nonzero : s 0 ≠ 0 := by
      rw [stored 0 (Nat.zero_le _),cstring_cons_zero]
      exact fun zero => plain (by simp [zero])
    rw [strlen,if_neg nonzero,ih (fun member => plain (by simp [member]))
      (fun i inside => stored (i + 1) (by simpa using inside)) (by simpa using short)]
    rfl

theorem cname_congr {p q : Nat → UInt8} {n : Nat} (same : ∀ i < n, p i = q i) : cname p n = cname q n := by
  induction n generalizing p q with
  | zero => rfl
  | succ n ih =>
    rw [cname,cname,same 0 (Nat.succ_pos n),ih (fun i bound => same (i + 1) (Nat.succ_lt_succ bound))]

/-- `strncmp` compares strings that are cut off behind `n` bytes. -/
theorem strncmp_eq_zero (p q : Nat → UInt8) (n : Nat) : strncmp p q n = 0 ↔ cname p n = cname q n := by
  induction n generalizing p q with
  | zero => simp [strncmp,cname]
  | succ n ih =>
    rw [strncmp,cname,cname]
    by_cases same : p 0 = q 0
    · by_cases zero : p 0 = 0
      · rw [if_neg (fun both => both.1 zero),if_pos zero,if_pos (same ▸ zero),same]
        simp
      · rw [if_pos ⟨zero,same⟩,if_neg zero,if_neg (same ▸ zero),ih,same]
        simp
    · have differ : (p 0).toNat ≠ (q 0).toNat := fun equal => same (UInt8.toNat_inj.mp equal)
      rw [if_neg (fun both => same both.2)]
      split_ifs with left right right
      · exact absurd (left.trans right.symm) same
      · simp; omega
      · simp; omega
      · simp [same]; omega

theorem strncpy_outside (mem : Nat → UInt8) (s : Nat) (t : Nat → UInt8) (n : Nat) {i : Nat} (outside : i < s ∨ s + n ≤ i) :
    strncpy mem s t n i = mem i := by
  induction n generalizing mem s t with
  | zero => rfl
  | succ n ih =>
    rw [strncpy]
    split_ifs
    · exact poke_outside _ _ _ _ outside
    · rw [ih _ _ _ (by omega)]
      exact update_of_ne (by omega) _ _

theorem cname_strncpy (mem : Nat → UInt8) (s : Nat) (t : Nat → UInt8) (n : Nat) :
    cname (fun i => strncpy mem s t n (s + i)) n = cname t n := by
  induction n generalizing mem s t with
  | zero => rfl
  | succ n ih =>
    rw [cname,cname]
    by_cases zero : t 0 = 0
    · have first : strncpy mem s t (n + 1) (s + 0) = 0 := by
        rw [strncpy,if_pos zero]
        exact poke_inside _ _ _ _ (Nat.succ_pos n)
      rw [if_pos first,if_pos zero]
    · have first : strncpy mem s t (n + 1) (s + 0) = t 0 := by
        rw [strncpy,if_neg zero,strncpy_outside _ _ _ _ (by omega)]
        exact update_self _ _ _
      rw [if_neg (by rw [first]; exact zero),if_neg zero,first]
      congr 1
      rw [← ih (update mem s (t 0)) (s + 1) (fun i => t (i + 1))]
      refine cname_congr fun i _ => ?_
      rw [strncpy,if_neg zero]
      congr 1
      omega

/-- What a string that is stored with its length is as a string that ends with a zero byte. -/
theorem cname_cstring (name : List UInt8) (n : Nat) : cname (cstring name) n = (name.takeWhile (· ≠ 0)).take n := by
  induction name generalizing n with
  | nil => cases n <;> simp [cname]
  | cons c name ih =>
    cases n with
    | zero => rfl
    | succ n =>
      rw [cname,cstring_cons_zero]
      simp only [cstring_cons_succ]
      by_cases zero : c = 0
      · simp [zero]
      · have rest : cname (fun i => cstring name i) n = _ := ih n
        rw [if_neg zero,rest]
        simp [zero]

theorem takeWhile_plain {name : List UInt8} (plain : 0 ∉ name) : name.takeWhile (· ≠ 0) = name :=
  List.takeWhile_eq_self_iff.mpr (by
    intro c member
    simp only [decide_eq_true_eq]
    rintro rfl
    exact plain member)

theorem cname_ended {p : Nat → UInt8} {m n : Nat} (le : m ≤ n) (ends : m < n → p m = 0) : cname p n = cname p m := by
  induction m generalizing p n with
  | zero =>
    cases n with
    | zero => rfl
    | succ n => simp only [cname,ends (Nat.succ_pos n),if_true]
  | succ m ih =>
    obtain ⟨n,rfl⟩ : ∃ k, n = k + 1 := ⟨n - 1,by omega⟩
    rw [cname,cname,ih (p := fun i => p (i + 1)) (by omega) (fun less => ends (by omega))]

theorem strlen_congr {s t : Nat → UInt8} {bound : Nat} (same : ∀ i < bound, t i = s i) : strlen t bound = strlen s bound := by
  induction bound generalizing s t with
  | zero => rfl
  | succ bound ih =>
    rw [strlen,strlen,same 0 (Nat.succ_pos bound),ih fun i inside => same (i + 1) (by omega)]

theorem strlen_none {s : Nat → UInt8} {bound : Nat} (nonzero : ∀ i < bound, s i ≠ 0) : strlen s bound = none := by
  induction bound generalizing s with
  | zero => rfl
  | succ bound ih =>
    rw [strlen,if_neg (nonzero 0 (Nat.succ_pos bound)),ih (fun i inside => nonzero (i + 1) (by omega))]
    rfl

end Xv6Ext2.Lib
