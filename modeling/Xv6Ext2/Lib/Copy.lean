import Mathlib

/-! Copying one cell after another. An address is anything with a step to the next one, so that a copy upwards and a copy
downwards are the same loop. -/
namespace Xv6Ext2.Lib
open Function

variable {ι α : Type} [DecidableEq ι]

/-- The loop that copies `n` cells from `s` on to `d` on. -/
def copyCells (next : ι → ι) (mem : ι → α) (d s : ι) : Nat → ι → α
  | 0 => mem
  | n + 1 => copyCells next (update mem d (mem s)) (next d) (next s) n

theorem copyCells_outside (next : ι → ι) (mem : ι → α) (d s : ι) (n : Nat) {a : ι} (outside : ∀ i < n, a ≠ next^[i] d) :
    copyCells next mem d s n a = mem a := by
  induction n generalizing mem d s with
  | zero => rfl
  | succ n ih =>
    rw [copyCells,ih _ _ _ fun i bound => outside (i + 1) (by omega)]
    exact update_of_ne (outside 0 (Nat.succ_pos n)) _ _

theorem copyCells_first {next : ι → ι} (mem : ι → α) {d s : ι} {n : Nat} (distinct : ∀ j < n, next^[j + 1] d ≠ d) :
    copyCells next mem d s (n + 1) d = mem s := by
  rw [copyCells,copyCells_outside _ _ _ _ _ fun j bound => (distinct j bound).symm]
  exact update_self _ _ _

/-- The copy is right when no cell is read after it was written. -/
theorem copyCells_inside {next : ι → ι} (mem : ι → α) {d s : ι} {n : Nat}
    (distinct : ∀ i j, i < j → j < n → next^[j] d ≠ next^[i] d) (unwritten : ∀ i j, i < j → j < n → next^[j] s ≠ next^[i] d)
    {i : Nat} (inside : i < n) : copyCells next mem d s n (next^[i] d) = mem (next^[i] s) := by
  induction n generalizing mem d s i with
  | zero => exact absurd inside (Nat.not_lt_zero i)
  | succ n ih =>
    cases i with
    | zero => exact copyCells_first mem fun j bound => distinct 0 (j + 1) (Nat.succ_pos j) (by omega)
    | succ i =>
      have rest := ih (update mem d (mem s)) (d := next d) (s := next s)
        (fun i j less bound => distinct (i + 1) (j + 1) (by omega) (by omega))
        (fun i j less bound => unwritten (i + 1) (j + 1) (by omega) (by omega)) (i := i) (by omega)
      rw [copyCells,iterate_succ_apply,rest,iterate_succ_apply]
      exact update_of_ne (unwritten 0 (i + 1) (Nat.succ_pos i) inside) _ _

theorem copyCells_add (next : ι → ι) (mem : ι → α) (d s : ι) (a b : Nat) :
    copyCells next mem d s (a + b) = copyCells next (copyCells next mem d s a) (next^[a] d) (next^[a] s) b := by
  induction a generalizing mem d s with
  | zero => simp [copyCells]
  | succ a ih =>
    rw [Nat.succ_add,copyCells,ih]
    rfl

/-- When the source runs into the destination, the first cell comes again. -/
theorem copyCells_repeats {next : ι → ι} (mem : ι → α) {d s : ι} {k n : Nat} (positive : 0 < k) (inside : k < n)
    (reached : next^[k] s = d) (distinct : ∀ i j, i < j → j < n → next^[j] d ≠ next^[i] d) :
    copyCells next mem d s n (next^[k] d) = mem s := by
  obtain ⟨k,rfl⟩ : ∃ j, k = j + 1 := ⟨k - 1,by omega⟩
  obtain ⟨b,rfl⟩ : ∃ b, n = (k + 1) + (b + 1) := ⟨n - k - 2,by omega⟩
  have stored : copyCells next mem d s (k + 1) d = mem s :=
    copyCells_first mem fun j bound => distinct 0 (j + 1) (Nat.succ_pos j) (by omega)
  have later : ∀ i < b, next^[k + 1] d ≠ next^[i] (next (next^[k + 1] d)) := by
    intro i bound
    rw [← iterate_succ_apply' next (k + 1),← iterate_add_apply]
    exact (distinct (k + 1) (i + (k + 2)) (by omega) (by omega)).symm
  rw [copyCells_add,copyCells,copyCells_outside _ _ _ _ _ later,update_self,reached,stored]

end Xv6Ext2.Lib
