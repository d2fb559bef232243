import Xv6Ext2.Lib.Exec

/-! Programs that never stop for a certain reason, from whatever state they are started in. -/
namespace Xv6Ext2.Lib

section

variable {ε σ α β : Type} {e : ε} {x y : Exec ε σ α} {f : α → Exec ε σ β}

def Avoids (e : ε) (x : Exec ε σ α) : Prop := ∀ s, x s ≠ .error e

theorem avoids_pure (a : α) : Avoids e (pure a : Exec ε σ α) := by
  intro s stopped
  cases stopped

theorem avoids_fault {other : ε} (different : other ≠ e) : Avoids e (fault other : Exec ε σ α) := by
  intro s stopped
  exact different (Except.error.inj stopped)

theorem Avoids.bind (first : Avoids e x) (next : ∀ a, Avoids e (f a)) : Avoids e (x >>= f) := by
  intro s stopped
  cases ran : x s with
  | error e' =>
    rw [bind_error ran f] at stopped
    obtain rfl := Except.error.inj stopped
    exact first s ran
  | ok result =>
    rw [bind_ok ran f] at stopped
    exact next _ _ stopped

theorem Avoids.ite {p : Prop} [Decidable p] (yes : p → Avoids e x) (no : ¬p → Avoids e y) :
    Avoids e (if p then x else y) := by
  split_ifs with holds
  · exact yes holds
  · exact no holds

end

end Xv6Ext2.Lib
