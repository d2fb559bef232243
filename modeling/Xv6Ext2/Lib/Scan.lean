import Mathlib

/-! Loops that step through memory by lengths that they read there. They end unless they come to a length of zero. -/
namespace Xv6Ext2.Lib

/-- From position `pos` a scan comes to a length of zero before it ends. -/
inductive Stuck (ended : Nat → Prop) (len : Nat → Nat) : Nat → Prop where
  | here {pos : Nat} (going : ¬ended pos) (zero : len pos = 0) : Stuck ended len pos
  | later {pos : Nat} (going : ¬ended pos) (next : Stuck ended len (pos + len pos)) : Stuck ended len pos

/-- A loop with a bound on its rounds, which reports `starved` when it would need more. -/
structure Scan {S R : Type} (loop : Nat → Nat → S → R) (starved : R) (good : Nat → S → Prop) (ended : Nat → Prop) (len : Nat → Nat)
    (limit : Nat) : Prop where
  below : ∀ pos, ¬ended pos → pos < limit
  halts : ∀ fuel pos s, good pos s → ended pos → loop (fuel + 1) pos s ≠ starved
  advances : ∀ pos s, good pos s → ¬ended pos →
    ∃ s', good (pos + len pos) s' ∧ ∀ fuel, loop (fuel + 1) pos s = loop fuel (pos + len pos) s'
  starves : ∀ pos s, good pos s → ¬ended pos → loop 0 pos s = starved

namespace Scan

variable {S R : Type} {loop : Nat → Nat → S → R} {starved : R} {good : Nat → S → Prop} {ended : Nat → Prop} {len : Nat → Nat}
  {limit : Nat}

theorem loops (scan : Scan loop starved good ended len limit) {pos : Nat} (stuck : Stuck ended len pos) (fuel : Nat) :
    ∀ s, good pos s → loop fuel pos s = starved := by
  induction fuel generalizing pos with
  | zero =>
    intro s valid
    cases stuck with
    | here going => exact scan.starves pos s valid going
    | later going => exact scan.starves pos s valid going
  | succ fuel ih =>
    intro s valid
    cases stuck with
    | here going zero =>
      obtain ⟨s',valid',same⟩ := scan.advances pos s valid going
      rw [same fuel]
      apply ih _ s' valid'
      rw [zero]
      exact .here going zero
    | later going next =>
      obtain ⟨s',valid',same⟩ := scan.advances pos s valid going
      rw [same fuel]
      exact ih next s' valid'

theorem ends (scan : Scan loop starved good ended len limit) {pos : Nat} (free : ¬Stuck ended len pos) :
    ∀ s, good pos s → ∃ fuel, loop fuel pos s ≠ starved := by
  -- each round that does not end the loop takes it nearer to the limit
  induction rest : limit - pos using Nat.strong_induction_on generalizing pos with
  | _ rest ih =>
    intro s valid
    by_cases done : ended pos
    · exact ⟨1,scan.halts 0 pos s valid done⟩
    · have positive : len pos ≠ 0 := fun zero => free (.here done zero)
      have inside := scan.below pos done
      have next : ¬Stuck ended len (pos + len pos) := fun stuck => free (.later done stuck)
      obtain ⟨s',valid',same⟩ := scan.advances pos s valid done
      obtain ⟨fuel,enough⟩ := ih (limit - (pos + len pos)) (by omega) next rfl s' valid'
      refine ⟨fuel + 1,?_⟩
      rw [same fuel]
      exact enough

/-- A scan ends exactly when it does not come to a length of zero. -/
theorem ends_iff (scan : Scan loop starved good ended len limit) {pos : Nat} {s : S} (valid : good pos s) :
    (∃ fuel, loop fuel pos s ≠ starved) ↔ ¬Stuck ended len pos := by
  constructor
  · intro some stuck
    obtain ⟨fuel,enough⟩ := some
    exact enough (scan.loops stuck fuel s valid)
  · intro free
    exact scan.ends free s valid

end Scan

end Xv6Ext2.Lib
