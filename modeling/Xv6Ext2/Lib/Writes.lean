import Mathlib

/-! Sequences of writes to an address space, applied in order. A later write to an address hides
every earlier one, so a sequence that was interrupted can be applied again from its start. -/
namespace Xv6Ext2.Lib
open Function

variable {α β : Type} [DecidableEq α]

def applyWrites : List (α × β) → (α → β) → α → β
  | [], f => f
  | w :: ws, f => applyWrites ws (update f w.1 w.2)

theorem applyWrites_append (ws vs : List (α × β)) (f : α → β) :
    applyWrites (ws ++ vs) f = applyWrites vs (applyWrites ws f) := by
  induction ws generalizing f with
  | nil => rfl
  | cons w ws ih => exact ih _

theorem applyWrites_untouched (ws : List (α × β)) (f : α → β) (a : α)
    (untouched : ∀ w ∈ ws, w.1 ≠ a) : applyWrites ws f a = f a := by
  induction ws generalizing f with
  | nil => rfl
  | cons w ws ih =>
    rw [applyWrites,ih _ (fun v member => untouched v (by simp [member]))]
    exact update_of_ne (untouched w (by simp)).symm _ _

/-- The result at an address depends on the start only if no write goes there. -/
theorem applyWrites_congr (ws : List (α × β)) (f g : α → β) (a : α)
    (same : f a = g a ∨ ∃ w ∈ ws, w.1 = a) : applyWrites ws f a = applyWrites ws g a := by
  induction ws generalizing f g with
  | nil => simpa [applyWrites] using same
  | cons w ws ih =>
    apply ih
    by_cases here : w.1 = a
    · left; simp [← here]
    · rcases same with equal | ⟨v,member,there⟩
      · left; simp [update_of_ne (Ne.symm here),equal]
      · rcases List.mem_cons.mp member with rfl | member
        · exact absurd there here
        · exact .inr ⟨v,member,there⟩

/-- Writing an address first that the sequence writes anyway changes nothing. -/
theorem applyWrites_update (ws : List (α × β)) (f : α → β) (a : α) (v : β)
    (written : ∃ w ∈ ws, w.1 = a) : applyWrites ws (update f a v) = applyWrites ws f := by
  funext x
  apply applyWrites_congr
  by_cases same : x = a
  · subst same; exact .inr written
  · left; exact update_of_ne same _ _

theorem applyWrites_agree (ws : List (α × β)) (f t : α → β) (a : α)
    (agree : ∀ w ∈ ws, w.2 = t w.1) (known : f a = t a ∨ ∃ w ∈ ws, w.1 = a) :
    applyWrites ws f a = t a := by
  induction ws generalizing f with
  | nil => simpa [applyWrites] using known
  | cons w ws ih =>
    apply ih _ (fun v member => agree v (by simp [member]))
    by_cases here : w.1 = a
    · left; simp [← here,agree w (by simp)]
    · rcases known with equal | ⟨v,member,there⟩
      · left; simp [update_of_ne (Ne.symm here),equal]
      · rcases List.mem_cons.mp member with rfl | member
        · exact absurd there here
        · exact .inr ⟨v,member,there⟩

end Xv6Ext2.Lib
