import Mathlib

/-! Programs that pass a state along and may stop for good.
`Meets x s post fail` is the triple of the development: run from `s`, the program `x` returns into
`post`, or it stops for a reason that `fail` allows. With `fail` false it says that `x` returns. -/
namespace Xv6Ext2.Lib

def Exec (ε σ α : Type) : Type := σ → Except ε (α × σ)

section

variable {ε σ α β : Type}

instance : Monad (Exec ε σ) where
  pure a := fun s => .ok (a,s)
  bind x f := fun s => match x s with
    | .ok (a,s') => f a s'
    | .error e => .error e

def fault (e : ε) : Exec ε σ α := fun _ => .error e

@[simp] theorem pure_run (a : α) (s : σ) : (pure a : Exec ε σ α) s = .ok (a,s) := rfl

@[simp] theorem fault_run (e : ε) (s : σ) : (fault e : Exec ε σ α) s = .error e := rfl

theorem bind_ok {x : Exec ε σ α} {s s' : σ} {a : α} (ran : x s = .ok (a,s')) (f : α → Exec ε σ β) :
    (x >>= f) s = f a s' := by
  change (match x s with | .ok (a,s') => f a s' | .error e => .error e) = f a s'
  rw [ran]

theorem bind_error {x : Exec ε σ α} {s : σ} {e : ε} (ran : x s = .error e) (f : α → Exec ε σ β) :
    (x >>= f) s = .error e := by
  change (match x s with | .ok (a,s') => f a s' | .error e => .error e) = .error e
  rw [ran]

def Meets (x : Exec ε σ α) (s : σ) (post : α → σ → Prop) (fail : ε → Prop) : Prop :=
  match x s with
  | .ok (a,s') => post a s'
  | .error e => fail e

namespace Meets

variable {x : Exec ε σ α} {f : α → Exec ε σ β} {s t : σ} {a : α} {e : ε}
  {post m : α → σ → Prop} {g : β → σ → Prop} {fail allowed : ε → Prop}

theorem of_ok (ran : x s = .ok (a,t)) (holds : post a t) : Meets x s post fail := by
  rw [Meets,ran]
  exact holds

theorem of_error (stopped : x s = .error e) (holds : fail e) : Meets x s post fail := by
  rw [Meets,stopped]
  exact holds

theorem pure_intro (holds : post a s) : Meets (pure a : Exec ε σ α) s post fail := holds

theorem result (meets : Meets x s post fail) (ran : x s = .ok (a,t)) : post a t := by
  rw [Meets,ran] at meets
  exact meets

theorem returns (meets : Meets x s post fail) (never : ∀ e, ¬fail e) :
    ∃ a t, x s = .ok (a,t) ∧ post a t := by
  cases ran : x s with
  | error e => rw [Meets,ran] at meets; exact absurd meets (never e)
  | ok result => exact ⟨result.1,result.2,rfl,meets.result ran⟩

theorem bind (first : Meets x s m fail) (next : ∀ a t, m a t → Meets (f a) t g fail) :
    Meets (x >>= f) s g fail := by
  cases ran : x s with
  | error e =>
    rw [Meets,ran] at first
    exact of_error (bind_error ran f) first
  | ok result =>
    have rest := next _ _ (first.result ran)
    rw [Meets,bind_ok ran f]
    exact rest

theorem step (ran : x s = .ok (a,t)) (rest : Meets (f a) t g fail) : Meets (x >>= f) s g fail := by
  rw [Meets,bind_ok ran f]
  exact rest

theorem stop (stopped : x s = .error e) (holds : fail e) : Meets (x >>= f) s g fail :=
  of_error (bind_error stopped f) holds

theorem mono (meets : Meets x s m allowed) (weaker : ∀ a t, m a t → post a t)
    (excused : ∀ e, allowed e → fail e) : Meets x s post fail := by
  cases ran : x s with
  | error e =>
    rw [Meets,ran] at meets
    exact of_error ran (excused e meets)
  | ok result => exact of_ok ran (weaker _ _ (meets.result ran))

theorem and {more : α → σ → Prop} {allowed' : ε → Prop} (meets : Meets x s m allowed) (meets' : Meets x s more allowed') :
    Meets x s (fun a t => m a t ∧ more a t) (fun e => allowed e ∧ allowed' e) := by
  cases ran : x s with
  | error e =>
    rw [Meets,ran] at meets meets'
    exact .of_error ran ⟨meets,meets'⟩
  | ok r => exact .of_ok ran ⟨meets.result ran,meets'.result ran⟩

theorem trivial (x : Exec ε σ α) (s : σ) : Meets x s (fun _ _ => True) fun _ => True := by
  cases ran : x s with
  | error e => exact .of_error ran True.intro
  | ok r => exact .of_ok ran True.intro

theorem excuse (meets : Meets x s post allowed) (excused : ∀ e, allowed e → fail e) : Meets x s post fail :=
  meets.mono (fun _ _ holds => holds) excused

/-- The rule for a counting loop. -/
theorem forM_range {body : Nat → Exec ε σ PUnit} (inv : Nat → σ → Prop) (n : Nat)
    (each : ∀ k < n, ∀ s, inv k s → Meets (body k) s (fun _ t => inv (k + 1) t) fail) (first : inv 0 s) :
    Meets ((List.range n).forM body) s (fun _ t => inv n t) fail := by
  have rounds (m k : Nat) (total : k + m = n) (s : σ) (here : inv k s) :
      Meets ((List.range' k m).forM body) s (fun _ t => inv n t) fail := by
    induction m generalizing k s with
    | zero =>
      subst total
      exact .pure_intro here
    | succ m ih =>
      rw [List.range'_succ]
      exact (each k (by omega) s here).bind fun _ t next => ih (k + 1) (by omega) t next
  rw [List.range_eq_range']
  exact rounds n 0 (Nat.zero_add n) s first

end Meets

/-- Why a run stops. -/
def stopped (x : Exec ε σ α) (s : σ) : Option ε :=
  match x s with
  | .ok _ => none
  | .error e => some e

theorem stopped_eq_some {x : Exec ε σ α} {s : σ} {e : ε} (seen : stopped x s = some e) : x s = .error e := by
  cases ran : x s with
  | ok result =>
    rw [stopped,ran] at seen
    cases seen
  | error e' =>
    rw [stopped,ran] at seen
    rw [Option.some.inj seen]

/-- What `f` sees of a run that returns. -/
def probe {γ : Type} (x : Exec ε σ α) (s : σ) (f : α → σ → Option γ) : Option γ :=
  match x s with
  | .ok (a,s') => f a s'
  | .error _ => none

theorem probe_eq_some {γ : Type} {x : Exec ε σ α} {s : σ} {f : α → σ → Option γ} {v : γ} (seen : probe x s f = some v) :
    ∃ a s', x s = .ok (a,s') ∧ f a s' = some v := by
  cases ran : x s with
  | error e =>
    rw [probe,ran] at seen
    cases seen
  | ok result =>
    rw [probe,ran] at seen
    exact ⟨result.1,result.2,rfl,seen⟩

end

end Xv6Ext2.Lib
