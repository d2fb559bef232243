import Xv6Ext2.Lib.Schedule

/-! `acquiresleep` and `releasesleep` of any processes on one sleep lock. A step ends where a process takes or releases one of the
two spin locks, `lk->lk` and the `ptable.lock` of `sleep` and `wakeup`. -/
namespace Xv6Ext2.Sleeplock
open Lib Function

/-- Where a process is: outside, or woken, and to take `lk->lk` next; at the test of `acquiresleep`; in `sleep` before and behind
`release(lk)`; asleep; with the sleep lock; at the `wakeup` of `releasesleep`. -/
inductive Place where
  | acquire
  | test
  | sleep
  | falls
  | asleep
  | holder
  | wakeup
  deriving DecidableEq

/-- `struct sleeplock`; `lk` and `ptable` say who has the spin locks. -/
structure State (ι : Type) where
  locked : Bool
  pid : UInt32
  lk : Option ι
  ptable : Option ι
  place : ι → Place

section

variable {ι : Type} [DecidableEq ι] (pids : ι → UInt32)

def State.goto (s : State ι) (i : ι) (p : Place) : State ι := {s with place := update s.place i p}

/-- A step of process `i`; one that is asleep moves when `kill` finds it. -/
def step (s : State ι) (i : ι) : Option (State ι) :=
  match s.place i with
  | .acquire => if s.lk = none then some {s.goto i .test with lk := some i} else none
  | .test =>
    if s.locked then some (s.goto i .sleep)
    else some {s.goto i .holder with locked := true, pid := pids i, lk := none}
  | .sleep => if s.ptable = none then some {s.goto i .falls with ptable := some i, lk := none} else none
  | .falls => some {s.goto i .asleep with ptable := none}
  | .asleep => if s.ptable = none then some (s.goto i .acquire) else none
  | .holder => if s.lk = none then some {s.goto i .wakeup with locked := false, pid := 0, lk := some i} else none
  | .wakeup =>
    if s.ptable = none then
      some {s with
        lk := none
        place := fun j => if j = i ∨ s.place j = .asleep then .acquire else s.place j}
    else none

/-- `initsleeplock` -/
def start : State ι := ⟨false,0,none,none,fun _ => .acquire⟩

def holdingsleep (s : State ι) (i : ι) : Bool := s.locked && s.pid == pids i

/-- A process that goes to sleep has seen the lock taken, and whoever gives it back has yet to call `wakeup`. -/
structure Safe (s : State ι) : Prop where
  lk : ∀ i, s.lk = some i ↔ s.place i = .test ∨ s.place i = .sleep ∨ s.place i = .wakeup
  ptable : ∀ i, s.ptable = some i ↔ s.place i = .falls
  holder : ∀ i, s.place i = .holder → s.locked = true ∧ s.pid = pids i
  one : ∀ i j, s.place i = .holder → s.place j = .holder → i = j
  locked : s.locked = true → ∃ i, s.place i = .holder
  sleep : ∀ i, s.place i = .sleep → s.locked = true
  asleep : ∀ i, s.place i = .falls ∨ s.place i = .asleep → s.locked = true ∨ ∃ j, s.place j = .wakeup

variable {pids} {s s' : State ι} {i : ι}

theorem Safe.step (safe : Safe pids s) (stepped : step pids s i = some s') : Safe pids s' := by
  obtain ⟨lk,ptable,holder,one,locked,sleep,asleep⟩ := safe
  unfold Sleeplock.step at stepped
  -- One case for each place, and for `test` one for each value of `locked`.
  split at stepped
  all_goals
    (try split_ifs at stepped)
    all_goals
      cases stepped
      constructor <;> simp only [State.goto,update_apply] <;> grind -ring -linarith

theorem step_none (blocked : step pids s i = none) : (s.place i = .acquire ∨ s.place i = .holder) ∧ s.lk ≠ none ∨
    (s.place i = .sleep ∨ s.place i = .asleep ∨ s.place i = .wakeup) ∧ s.ptable ≠ none := by
  unfold step at blocked
  split at blocked <;> grind -ring -linarith

/-- Somebody can go on, who need not be killed for it. -/
theorem Safe.moves (safe : Safe pids s) (i : ι) : ∃ j, s.place j ≠ .asleep ∧ (Sleeplock.step pids s j).isSome := by
  by_contra stuck
  have blocked (j : ι) (awake : s.place j ≠ .asleep) := step_none (Option.not_isSome_iff_eq_none.mp fun moves => stuck ⟨j,awake,moves⟩)
  obtain ⟨lk,ptable,-,-,locked,-,asleep⟩ := safe
  -- Whoever has `ptable.lock` falls asleep, so it is free, and so is `lk->lk`; then a process is asleep, and another has the lock.
  have mine := blocked i
  have awaited := asleep i
  cases held : s.ptable <;> cases taken : s.lk <;> grind -ring -linarith

end

/-- In every state that any processes with different pids reach: one at most has the lock, and `holdingsleep` says who; while the lock
is free, and nobody is about to change that, no process sleeps on it or is about to; and some process can take its next step. -/
theorem sleeplock_safe {ι : Type} [DecidableEq ι] {pids : ι → UInt32} (distinct : Injective pids) {turns : List ι} {s : State ι}
    (ran : schedule (step pids) turns start = some s) :
    (∀ i j, s.place i = .holder → s.place j = .holder → i = j) ∧ (∀ i, holdingsleep pids s i = true ↔ s.place i = .holder) ∧
    (s.lk = none → s.locked = false → ∀ i, s.place i ≠ .asleep ∧ s.place i ≠ .falls) ∧
    ∀ _ : ι, ∃ j, s.place j ≠ .asleep ∧ (step pids s j).isSome := by
  have safe : Safe pids s := schedule_invariant (fun _ _ _ safe stepped => safe.step stepped) (by constructor <;> simp [start]) ran
  refine ⟨safe.one,fun i => ?_,fun free open' i => ?_,safe.moves⟩
  · rw [holdingsleep,Bool.and_eq_true,beq_iff_eq]
    constructor
    · rintro ⟨locked,mine⟩
      obtain ⟨j,has⟩ := safe.locked locked
      rwa [← distinct ((safe.holder j has).2.symm.trans mine)]
    · exact safe.holder i
  · have awaited := safe.asleep i
    have spins := safe.lk
    grind

private def two : Bool → UInt32 := fun i => if i then 1 else 2

/-- A process waits for another and gets the lock after it. -/
private def handover : List Bool := [true,true,false,false,false,false,true,true,false,false]

theorem sleeplock_safe_handover : ∃ s, schedule (step two) handover start = some s ∧ holdingsleep two s false = true := by
  have returns : ((schedule (step two) handover start).map fun s => s.place false) = some .holder := by decide +kernel
  obtain ⟨s,ran,here⟩ := Option.map_eq_some_iff.mp returns
  exact ⟨s,ran,((sleeplock_safe (by decide) ran).2.1 false).mpr here⟩

end Xv6Ext2.Sleeplock
