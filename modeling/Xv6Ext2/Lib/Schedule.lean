import Mathlib

/-! Interleavings. A system is a function that lets one process take its next step, or refuses it; a
schedule lists whose turn it is. `Throughout` is a condition on the states in which steps are taken. -/
namespace Xv6Ext2.Lib
open Function

section

variable {σ ι : Type} (step : σ → ι → Option σ)

def schedule : List ι → σ → Option σ
  | [], s => some s
  | i :: is, s => (step s i).bind (schedule is)

/-- Whenever process `i` takes a step of the schedule in state `s`, `ok s i` holds. -/
def Throughout (ok : σ → ι → Prop) : List ι → σ → Prop
  | [], _ => True
  | i :: is, s => ok s i ∧ ∀ s', step s i = some s' → Throughout ok is s'

instance (ok : σ → ι → Prop) [∀ s i, Decidable (ok s i)] : ∀ is s, Decidable (Throughout step ok is s)
  | [], _ => .isTrue trivial
  | i :: is, s =>
    match stepped : step s i with
    | none => decidable_of_iff (ok s i) ⟨fun here => ⟨here,fun s' other => by rw [stepped] at other; cases other⟩,And.left⟩
    | some t =>
      have := instDecidableThroughout ok is t
      decidable_of_iff (ok s i ∧ Throughout step ok is t)
        (and_congr_right' ⟨fun rest s' other => Option.some.inj (stepped.symm.trans other) ▸ rest,fun rest => rest t stepped⟩)

variable {step} {inv : σ → Prop} {ok : σ → ι → Prop} {s s' : σ} {is : List ι}

theorem Throughout.mono {ok' : σ → ι → Prop} (weaker : ∀ s i, ok s i → ok' s i) (meets : Throughout step ok is s) :
    Throughout step ok' is s := by
  induction is generalizing s with
  | nil => trivial
  | cons i is ih => exact ⟨weaker s i meets.1,fun s' stepped => ih (meets.2 s' stepped)⟩

/-- What every step that meets a condition keeps is kept by every schedule that meets it throughout. -/
theorem schedule_keeps (keeps : ∀ s i s', inv s → ok s i → step s i = some s' → inv s')
    (meets : Throughout step ok is s) (first : inv s) (ran : schedule step is s = some s') : inv s' := by
  induction is generalizing s with
  | nil =>
    obtain rfl : s = s' := Option.some.inj ran
    exact first
  | cons i is ih =>
    obtain ⟨t,stepped,rest⟩ := Option.bind_eq_some_iff.mp ran
    exact ih (meets.2 t stepped) (keeps s i t first meets.1 stepped) rest

theorem throughout_true : Throughout step (fun _ _ => True) is s := by
  induction is generalizing s with
  | nil => trivial
  | cons i is ih => exact ⟨trivial,fun _ _ => ih⟩

/-- An invariant of every schedule. -/
theorem schedule_invariant (keeps : ∀ s i s', inv s → step s i = some s' → inv s') (first : inv s)
    (ran : schedule step is s = some s') : inv s' :=
  schedule_keeps (fun s i s' holds (_ : True) => keeps s i s' holds) throughout_true first ran

/-- If every step of a machine is matched by one of another, so is every schedule. -/
theorem schedule_simulates {τ : Type} {step' : τ → ι → Option τ} {R : σ → τ → Prop}
    (simulates : ∀ s t i s', R s t → step s i = some s' → ∃ t', step' t i = some t' ∧ R s' t') {t : τ} (first : R s t)
    (ran : schedule step is s = some s') : ∃ t', schedule step' is t = some t' ∧ R s' t' := by
  induction is generalizing s t with
  | nil => exact ⟨t,rfl,Option.some.inj ran ▸ first⟩
  | cons i is ih =>
    obtain ⟨u,stepped,rest⟩ := Option.bind_eq_some_iff.mp ran
    obtain ⟨v,matched,related⟩ := simulates s t i u first stepped
    obtain ⟨t',runs,last⟩ := ih related rest
    exact ⟨t',Option.bind_eq_some_iff.mpr ⟨v,matched,runs⟩,last⟩

/-- A schedule that breaks the condition breaks it at some step. -/
theorem exists_broken (broken : ¬Throughout step ok is s) (ran : schedule step is s = some s') :
    ∃ before i after t t', schedule step before s = some t ∧ ¬ok t i ∧ step t i = some t' ∧
      schedule step after t' = some s' := by
  induction is generalizing s with
  | nil => exact absurd trivial broken
  | cons i is ih =>
    obtain ⟨t,stepped,rest⟩ := Option.bind_eq_some_iff.mp ran
    by_cases here : ok s i
    · have later : ¬Throughout step ok is t := by
        intro meets
        refine broken ⟨here,fun u other => ?_⟩
        rw [stepped] at other
        exact Option.some.inj other ▸ meets
      obtain ⟨before,j,after,u,u',ran₁,bad,step₂,ran₂⟩ := ih later rest
      exact ⟨i :: before,j,after,u,u',by rw [schedule,stepped]; exact ran₁,bad,step₂,ran₂⟩
    · exact ⟨[],i,is,s,t,rfl,here,stepped,rest⟩

/-- `p` holds in every state that the schedule passes through, the first and the last included. -/
def Always (step : σ → ι → Option σ) (p : σ → Prop) : List ι → σ → Prop
  | [], s => p s
  | i :: is, s => p s ∧ ∀ s', step s i = some s' → Always step p is s'

/-- If a step keeps `p` exactly where it meets the condition, a run keeps `p` exactly where all its steps do. -/
theorem always_iff_throughout {p : σ → Prop}
    (keeps : ∀ s i s', inv s → p s → step s i = some s' → inv s' ∧ (p s' ↔ ok s i))
    (first : inv s) (holds : p s) (ran : schedule step is s = some s') :
    Always step p is s ↔ Throughout step ok is s := by
  induction is generalizing s with
  | nil => exact iff_of_true holds trivial
  | cons i is ih =>
    obtain ⟨t,stepped,rest⟩ := Option.bind_eq_some_iff.mp ran
    obtain ⟨next,same⟩ := keeps s i t first holds stepped
    have only {q : σ → Prop} : (∀ u, step s i = some u → q u) ↔ q t := by
      rw [stepped]
      simp
    rw [Always,Throughout,only,only,← same]
    constructor
    · rintro ⟨-,always⟩
      have after : p t := by
        cases is with
        | nil => exact always
        | cons j is => exact always.1
      exact ⟨after,(ih next after rest).mp always⟩
    · rintro ⟨after,meets⟩
      exact ⟨holds,(ih next after rest).mpr meets⟩

end

/-- What a count of processes gains and loses when process `i` moves. -/
theorem sum_moved {ι β : Type} [Fintype ι] [DecidableEq ι] (f : ι → β) (g : β → Nat) (i : ι) (p : β) :
    ∑ j, g (update f i p j) + g (f i) = ∑ j, g (f j) + g p := by
  have split (h : ι → β) := Finset.add_sum_erase Finset.univ (fun j => g (h j)) (Finset.mem_univ i)
  have rest : ∑ j ∈ Finset.univ.erase i, g (update f i p j) = ∑ j ∈ Finset.univ.erase i, g (f j) :=
    Finset.sum_congr rfl (fun j other => by rw [update_of_ne (Finset.ne_of_mem_erase other)])
  have before := split f
  have after := split (update f i p)
  rw [update_self,rest] at after
  omega

end Xv6Ext2.Lib
