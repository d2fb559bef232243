import Xv6Ext2.Lib.Exec

/-! Two programs run from the same state: rules for showing that they do the same to the state and return related
values. -/
namespace Xv6Ext2.Lib

section

variable {ε σ α β α' β' : Type}

/-- Both return in the same state, with results related by `R`, or both stop for the same reason. -/
def Agree (x : Exec ε σ α) (y : Exec ε σ β) (s : σ) (R : α → β → σ → Prop) : Prop :=
  (∃ a b t, x s = .ok (a,t) ∧ y s = .ok (b,t) ∧ R a b t) ∨ ∃ e, x s = .error e ∧ y s = .error e

namespace Agree

variable {x : Exec ε σ α} {y : Exec ε σ β} {s : σ} {R R' : α → β → σ → Prop} {a : α} {b : β}

theorem pure_intro (related : R a b s) : Agree (pure a : Exec ε σ α) (pure b : Exec ε σ β) s R :=
  .inl ⟨a,b,s,rfl,rfl,related⟩

theorem fault_intro (e : ε) : Agree (fault e : Exec ε σ α) (fault e : Exec ε σ β) s R := .inr ⟨e,rfl,rfl⟩

theorem refl (x : Exec ε σ α) (s : σ) : Agree x x s (fun a b _ => b = a) := by
  cases ran : x s with
  | error e => exact .inr ⟨e,ran,ran⟩
  | ok r => exact .inl ⟨r.1,r.1,r.2,ran,ran,rfl⟩

theorem bind {f : α → Exec ε σ α'} {g : β → Exec ε σ β'} {Q : α' → β' → σ → Prop} (first : Agree x y s R)
    (next : ∀ a b t, R a b t → Agree (f a) (g b) t Q) : Agree (x >>= f) (y >>= g) s Q := by
  rcases first with ⟨a,b,t,ran,ran',related⟩ | ⟨e,stopped,stopped'⟩
  · rw [Agree,bind_ok ran f,bind_ok ran' g]
    exact next a b t related
  · exact .inr ⟨e,bind_error stopped f,bind_error stopped' g⟩

theorem mono (agree : Agree x y s R) (weaker : ∀ a b t, R a b t → R' a b t) : Agree x y s R' := by
  rcases agree with ⟨a,b,t,ran,ran',related⟩ | stopped
  · exact .inl ⟨a,b,t,ran,ran',weaker a b t related⟩
  · exact .inr stopped

/-- What is known of the first run. -/
theorem meets {post : α → σ → Prop} {fail : ε → Prop} (agree : Agree x y s R) (meets : Meets x s post fail) :
    Agree x y s (fun a b t => R a b t ∧ post a t) := by
  rcases agree with ⟨a,b,t,ran,ran',related⟩ | stopped
  · exact .inl ⟨a,b,t,ran,ran',related,meets.result ran⟩
  · exact .inr stopped

/-- Runs that return the same are the same. -/
theorem eq {y : Exec ε σ α} (agree : Agree x y s (fun a b _ => b = a)) : x s = y s := by
  rcases agree with ⟨a,b,t,ran,ran',rfl⟩ | ⟨e,stopped,stopped'⟩
  · rw [ran,ran']
  · rw [stopped,stopped']

end Agree

end

end Xv6Ext2.Lib
