import Xv6Ext2.Log
import Xv6Ext2.Lib.Schedule
import Mathlib

/-! `begin_op`, `log_write` and `end_op` of any number of processes, with the sleeping and waking of
proc.c. A step ends where a process acquires or releases `log.lock`, goes to sleep or wakes the others. -/
namespace Xv6Ext2.GroupCommit
open Lib Bio Log Function

/-- Where a process is. It is outside (`idle`) or inside an operation (`inOp`); holds `log.lock` in the
loop of `begin_op` (`beginning`); has acquired `ptable.lock` in `sleep` (`dozing`), released `log.lock`
there (`nodding`) and called `sched` (`asleep`); has been woken (`woken`); has passed the tests of
`log_write` (`writing`) and holds the lock there (`appending`); holds the lock in `end_op` (`ending`);
commits (`committing`), has cleared `log.lh.n` (`committed`) and holds the lock again (`finishing`); is
about to call `wakeup` (`waking`) and to release the lock (`releasing`). -/
inductive Pc where
  | idle
  | beginning
  | dozing
  | nodding
  | asleep
  | woken
  | inOp
  | writing (b : Blockno)
  | appending (b : Blockno)
  | ending
  | committing
  | committed
  | finishing
  | waking
  | releasing
  deriving DecidableEq

/-- `log`, the holders of `log.lock` and `ptable.lock`, and what the processes do. `logged` are the blocks
that a process has logged since its `begin_op`, `admitted` counts the `begin_op`s that have returned since
`committing` was last set. -/
structure State (ι : Type) where
  size : Nat
  outstanding : Nat
  committing : Bool
  lh : List Blockno
  lock : Option ι
  ptable : Option ι
  fault : Option Fault
  pc : ι → Pc
  logged : ι → Finset Blockno
  admitted : Nat

inductive Move where
  | go
  | begin
  | write (b : Blockno)
  | finish

section

variable {ι : Type} [DecidableEq ι]

namespace State

def goto (s : State ι) (i : ι) (p : Pc) : State ι := {s with pc := update s.pc i p}

theorem goto_self (s : State ι) (i : ι) (p : Pc) : (s.goto i p).pc i = p := update_self _ _ _

theorem goto_other (s : State ι) {i j : ι} (other : j ≠ i) (p : Pc) : (s.goto i p).pc j = s.pc j :=
  update_of_ne other _ _

/-- `acquire(&log.lock)` -/
def acquire (s : State ι) (i : ι) (p : Pc) : Option (State ι) :=
  if s.lock = none then some ({s with lock := some i}.goto i p) else none

/-- The tests of `begin_op`. -/
def full (s : State ι) : Prop := s.lh.length + (s.outstanding + 1) * maxopblocks > logsize

instance (s : State ι) : Decidable s.full := inferInstanceAs (Decidable (_ > _))

def beginOp (s : State ι) (i : ι) : Option (State ι) :=
  if s.committing ∨ s.full then
    if s.ptable = none then some ({s with ptable := some i}.goto i .dozing) else none
  else
    some ({s with
      outstanding := s.outstanding + 1
      lock := none
      logged := update s.logged i ∅
      admitted := s.admitted + 1}.goto i .inOp)

/-- The tests of `log_write`, made without the lock. -/
def logWriteCheck (s : State ι) (i : ι) (b : Blockno) : State ι :=
  if s.lh.length ≥ logsize ∨ s.lh.length + 1 ≥ s.size then {s with fault := some (.panic "too big a transaction")}
  else if s.outstanding < 1 then {s with fault := some (.panic "log_write outside of trans")}
  else s.goto i (.writing b)

/-- A new block behind the end of `log.lh.block` is out of bounds. -/
def logWriteAppend (s : State ι) (i : ι) (b : Blockno) : State ι :=
  if b ∈ s.lh then {s with lock := none, logged := update s.logged i (insert b (s.logged i))}.goto i .inOp
  else if s.lh.length < logsize then
    {s with
      lh := s.lh ++ [b]
      lock := none
      logged := update s.logged i (insert b (s.logged i))}.goto i .inOp
  else {s with fault := some .outOfBounds}

def endOp (s : State ι) (i : ι) : State ι :=
  if s.committing then {s with outstanding := s.outstanding - 1, fault := some (.panic "log.committing")}
  else if s.outstanding - 1 = 0 then
    {s with outstanding := s.outstanding - 1, committing := true, lock := none, admitted := 0}.goto i .committing
  else {s with outstanding := s.outstanding - 1}.goto i .waking

/-- `wakeup(&log)`, which needs `ptable.lock`. -/
def wakeup (s : State ι) (i : ι) : Option (State ι) :=
  if s.ptable = none then
    some ({s with pc := fun j => if s.pc j = Pc.asleep then .woken else s.pc j}.goto i .releasing)
  else none

/-- A step of process `turn.1`. -/
def step (s : State ι) (turn : ι × Move) : Option (State ι) :=
  let i := turn.1
  if s.fault ≠ none then none
  else match s.pc i, turn.2 with
    | .idle, .begin => s.acquire i .beginning
    | .beginning, .go => s.beginOp i
    | .dozing, .go => some ({s with lock := none}.goto i .nodding)
    | .nodding, .go => some ({s with ptable := none}.goto i .asleep)
    | .woken, .go => s.acquire i .beginning
    | .inOp, .write b => some (s.logWriteCheck i b)
    | .writing b, .go => s.acquire i (.appending b)
    | .appending b, .go => some (s.logWriteAppend i b)
    | .inOp, .finish => s.acquire i .ending
    | .ending, .go => some (s.endOp i)
    | .committing, .go => some ({s with lh := []}.goto i .committed)
    | .committed, .go => s.acquire i .finishing
    | .finishing, .go => some ({s with committing := false}.goto i .waking)
    | .waking, .go => s.wakeup i
    | .releasing, .go => some ({s with lock := none}.goto i .idle)
    | _, _ => none

/-- The log after `initlog`. -/
structure Initial (s : State ι) : Prop where
  outstanding : s.outstanding = 0
  committing : s.committing = false
  lh : s.lh = []
  lock : s.lock = none
  ptable : s.ptable = none
  fault : s.fault = none
  idle : ∀ i, s.pc i = .idle

end State

end

namespace Pc

/-- The process holds `log.lock`. -/
def Holding : Pc → Prop
  | .beginning | .dozing | .appending _ | .ending | .finishing | .waking | .releasing => True
  | _ => False

/-- The process holds `ptable.lock`. -/
def Dozing : Pc → Prop
  | .dozing | .nodding => True
  | _ => False

/-- The process sleeps on the log, or is on its way to. -/
def Sleepy : Pc → Prop
  | .dozing | .nodding | .asleep => True
  | _ => False

/-- 1 between `begin_op` and `end_op`. -/
def active : Pc → Nat
  | .inOp | .writing _ | .appending _ | .ending => 1
  | _ => 0

theorem active_idle : active .idle = 0 := rfl

/-- 1 from the last `end_op` to the end of its commit. -/
def commits : Pc → Nat
  | .committing | .committed | .finishing => 1
  | _ => 0

/-- The log is cleared, and `committing` still set. -/
def Cleared : Pc → Prop
  | .committed | .finishing => True
  | _ => False

/-- Where a process can get the lock, and where it is then. -/
def Acquires : Pc → Pc → Prop
  | .idle, .beginning | .woken, .beginning | .inOp, .ending | .committed, .finishing => True
  | .writing b, .appending b' => b = b'
  | _, _ => False

end Pc

section

variable {ι : Type} [DecidableEq ι]

namespace State

inductive Step (s : State ι) (i : ι) (m : Move) : State ι → Prop where
  | acquired {p : Pc} (change : (s.pc i).Acquires p) (free : s.lock = none) : Step s i m ({s with lock := some i}.goto i p)
  | slept (here : s.pc i = .beginning) (blocked : s.committing = true ∨ s.full) (free : s.ptable = none) :
      Step s i m ({s with ptable := some i}.goto i .dozing)
  | admitted (here : s.pc i = .beginning) (allowed : ¬(s.committing = true ∨ s.full)) :
      Step s i m ({s with
        outstanding := s.outstanding + 1
        lock := none
        logged := update s.logged i ∅
        admitted := s.admitted + 1}.goto i .inOp)
  | nodded (here : s.pc i = .dozing) : Step s i m ({s with lock := none}.goto i .nodding)
  | descheduled (here : s.pc i = .nodding) : Step s i m ({s with ptable := none}.goto i .asleep)
  | checked (b : Blockno) (asked : m = .write b) (here : s.pc i = .inOp)
      (room : ¬(s.lh.length ≥ logsize ∨ s.lh.length + 1 ≥ s.size)) :
      Step s i m (s.goto i (.writing b))
  | overflowed (b : Blockno) (here : s.pc i = .inOp) (tight : s.lh.length ≥ logsize ∨ s.lh.length + 1 ≥ s.size) :
      Step s i m {s with fault := some (.panic "too big a transaction")}
  | stray (here : s.pc i = .inOp) : Step s i m {s with fault := some (.panic "log_write outside of trans")}
  | absorbed (b : Blockno) (here : s.pc i = .appending b) (present : b ∈ s.lh) :
      Step s i m ({s with lock := none, logged := update s.logged i (insert b (s.logged i))}.goto i .inOp)
  | appended (b : Blockno) (here : s.pc i = .appending b) (absent : b ∉ s.lh) (fits : s.lh.length < logsize) :
      Step s i m ({s with
        lh := s.lh ++ [b]
        lock := none
        logged := update s.logged i (insert b (s.logged i))}.goto i .inOp)
  | overran (b : Blockno) (here : s.pc i = .appending b) (long : ¬s.lh.length < logsize) :
      Step s i m {s with fault := some .outOfBounds}
  | clashed (here : s.pc i = .ending) (committing : s.committing = true) :
      Step s i m {s with outstanding := s.outstanding - 1, fault := some (.panic "log.committing")}
  | last (here : s.pc i = .ending) (running : ¬s.committing = true) (zero : s.outstanding - 1 = 0) :
      Step s i m ({s with
        outstanding := s.outstanding - 1
        committing := true
        lock := none
        admitted := 0}.goto i .committing)
  | left (here : s.pc i = .ending) (running : ¬s.committing = true) (more : ¬s.outstanding - 1 = 0) :
      Step s i m ({s with outstanding := s.outstanding - 1}.goto i .waking)
  | cleared (here : s.pc i = .committing) : Step s i m ({s with lh := []}.goto i .committed)
  | finished (here : s.pc i = .finishing) : Step s i m ({s with committing := false}.goto i .waking)
  | woke (here : s.pc i = .waking) (free : s.ptable = none) :
      Step s i m ({s with pc := fun j => if s.pc j = Pc.asleep then .woken else s.pc j}.goto i .releasing)
  | released (here : s.pc i = .releasing) : Step s i m ({s with lock := none}.goto i .idle)

private theorem acquire_cases {s s' : State ι} {i : ι} {m : Move} {p : Pc} (ran : s.acquire i p = some s')
    (change : (s.pc i).Acquires p) : s.Step i m s' := by
  rw [acquire] at ran
  split_ifs at ran with free
  cases ran
  exact .acquired change free

theorem step_cases {s s' : State ι} {turn : ι × Move} (ran : s.step turn = some s') :
    s.Step turn.1 turn.2 s' := by
  obtain ⟨i,m⟩ := turn
  simp only [step] at ran
  split_ifs at ran
  generalize here : s.pc i = q at ran
  cases q with
  | idle => cases m <;> first | cases ran | exact acquire_cases ran (by rw [here]; trivial)
  | beginning =>
    cases m <;> try cases ran
    simp only [beginOp] at ran
    split_ifs at ran with blocked free
    · cases ran
      exact .slept here blocked free
    · cases ran
      exact .admitted here blocked
  | dozing =>
    cases m <;> cases ran
    exact .nodded here
  | nodding =>
    cases m <;> cases ran
    exact .descheduled here
  | asleep => cases m <;> cases ran
  | woken => cases m <;> first | cases ran | exact acquire_cases ran (by rw [here]; trivial)
  | inOp =>
    cases m with
    | write b =>
      cases ran
      rw [logWriteCheck]
      split_ifs with tight
      · exact .overflowed b here tight
      · exact .stray here
      · exact .checked b rfl here tight
    | finish => exact acquire_cases ran (by rw [here]; trivial)
    | go | begin => cases ran
  | writing b => cases m <;> first | cases ran | exact acquire_cases ran (by rw [here]; rfl)
  | appending b =>
    cases m <;> cases ran
    rw [logWriteAppend]
    split_ifs with present fits
    · exact .absorbed b here present
    · exact .appended b here present fits
    · exact .overran b here fits
  | ending =>
    cases m <;> cases ran
    rw [endOp]
    split_ifs with committing zero
    · exact .clashed here committing
    · exact .last here committing zero
    · exact .left here committing zero
  | committing =>
    cases m <;> cases ran
    exact .cleared here
  | committed => cases m <;> first | cases ran | exact acquire_cases ran (by rw [here]; trivial)
  | finishing =>
    cases m <;> cases ran
    exact .finished here
  | waking =>
    cases m <;> try cases ran
    simp only [wakeup] at ran
    split_ifs at ran with free
    cases ran
    exact .woke here free
  | releasing =>
    cases m <;> cases ran
    exact .released here

end State

/-- How a lock may change hands when process `i` moves; `had` and `has` say that it has the lock. -/
def Handed (old new : Option ι) (i : ι) (had has : Prop) : Prop :=
  new = old ∧ (has → had) ∨ old = none ∧ new = some i ∨ old = some i ∧ new = none ∧ ¬has

omit [DecidableEq ι] in
private theorem handed_keeps {old new : Option ι} {i : ι} {held : ι → Prop} {has : Prop}
    (handed : Handed old new i (held i) has) (before : ∀ j, held j → old = some j) :
    (has → new = some i) ∧ ∀ j, j ≠ i → held j → new = some j := by
  rcases handed with ⟨same,still⟩ | ⟨free,taken⟩ | ⟨mine,given,no⟩
  · exact ⟨fun has => same.trans (before i (still has)),fun j _ held => same.trans (before j held)⟩
  · refine ⟨fun _ => taken,fun j _ held => ?_⟩
    rw [before j held] at free
    cases free
  · refine ⟨fun has => absurd has no,fun j other held => ?_⟩
    rw [before j held] at mine
    exact absurd (Option.some.inj mine) other

variable [Fintype ι]

namespace State

structure Inv (s : State ι) : Prop where
  lock : ∀ i, (s.pc i).Holding → s.lock = some i
  ptable : ∀ i, (s.pc i).Dozing → s.ptable = some i
  active : s.outstanding = ∑ i, (s.pc i).active
  commits : s.committing.toNat = ∑ i, (s.pc i).commits
  quiet : s.committing = true → s.outstanding = 0 ∧ s.admitted = 0
  nodup : s.lh.Nodup
  emptied : (∃ i, (s.pc i).Cleared) ∨ s.committing = false ∧ s.outstanding = 0 → s.lh = []
  wake : (∀ w, s.pc w ≠ .waking) → ∀ i, (s.pc i).Sleepy → s.committing = true ∨ s.full
  calm : s.fault ≠ some (.panic "log.committing")

variable {s s' : State ι} {i : ι}

omit [DecidableEq ι] in
theorem Initial.inv (initial : s.Initial) : s.Inv where
  lock i holding := by rw [initial.idle] at holding; exact holding.elim
  ptable i dozing := by rw [initial.idle] at dozing; exact dozing.elim
  active := by simp [initial.outstanding,initial.idle,Pc.active_idle]
  commits := by simp [initial.committing,initial.idle,Pc.commits]
  quiet committing := by rw [initial.committing] at committing; cases committing
  nodup := by rw [initial.lh]; exact List.nodup_nil
  emptied _ := initial.lh
  wake _ i sleepy := by rw [initial.idle] at sleepy; exact sleepy.elim
  calm := by rw [initial.fault]; exact (Option.some_ne_none _).symm

omit [DecidableEq ι] in
theorem Inv.active_le (inv : s.Inv) : (s.pc i).active ≤ s.outstanding := by
  rw [inv.active]
  exact Finset.single_le_sum (fun j _ => Nat.zero_le (s.pc j).active) (Finset.mem_univ i)

omit [DecidableEq ι] in
theorem Inv.running (inv : s.Inv) (inside : (s.pc i).active = 1) : s.committing = false := by
  by_contra committing
  have none := (inv.quiet (Bool.not_eq_false _ ▸ committing)).1
  have some := inv.active_le (i := i)
  omega

omit [DecidableEq ι] in
theorem Inv.committer (inv : s.Inv) (commits : (s.pc i).commits = 1) : s.committing = true := by
  have one := Finset.single_le_sum (fun j _ => Nat.zero_le (s.pc j).commits) (Finset.mem_univ i)
  rw [commits,← inv.commits] at one
  cases flag : s.committing with
  | true => rfl
  | false =>
    rw [flag] at one
    exact absurd one (by decide)

omit [DecidableEq ι] in
theorem Inv.cleared_commits (inv : s.Inv) (cleared : (s.pc i).Cleared) : s.committing = true := by
  refine inv.committer (i := i) ?_
  generalize s.pc i = q at cleared
  cases q <;> first | exact cleared.elim | rfl

private theorem inv_moved (inv : s.Inv) {p : Pc} (pc : s'.pc = update s.pc i p)
    (lock : Handed s.lock s'.lock i (s.pc i).Holding p.Holding)
    (ptable : Handed s.ptable s'.ptable i (s.pc i).Dozing p.Dozing)
    (active : s'.outstanding + (s.pc i).active = s.outstanding + p.active)
    (commits : s'.committing.toNat + (s.pc i).commits = s.committing.toNat + p.commits)
    (quiet : s'.committing = true → s'.outstanding = 0 ∧ s'.admitted = 0) (nodup : s'.lh.Nodup)
    (emptied : p.Cleared ∨ (∃ j, j ≠ i ∧ (s.pc j).Cleared) ∨ s'.committing = false ∧ s'.outstanding = 0 → s'.lh = [])
    (wake : p ≠ .waking → (∀ w, w ≠ i → s.pc w ≠ .waking) → p.Sleepy ∨ (∃ j, j ≠ i ∧ (s.pc j).Sleepy) →
      s'.committing = true ∨ s'.full)
    (calm : s'.fault ≠ some (.panic "log.committing")) : s'.Inv := by
  have holders := handed_keeps lock inv.lock
  have dozers := handed_keeps ptable inv.ptable
  have self : s'.pc i = p := by rw [pc,update_self]
  have other (j : ι) (ne : j ≠ i) : s'.pc j = s.pc j := by rw [pc,update_of_ne ne]
  refine ⟨?_,?_,?_,?_,quiet,nodup,?_,?_,calm⟩
  · intro j holding
    by_cases here : j = i
    · rw [here,self] at holding
      rw [here]
      exact holders.1 holding
    · rw [other j here] at holding
      exact holders.2 j here holding
  · intro j dozing
    by_cases here : j = i
    · rw [here,self] at dozing
      rw [here]
      exact dozers.1 dozing
    · rw [other j here] at dozing
      exact dozers.2 j here dozing
  · have moved := sum_moved s.pc Pc.active i p
    have before := inv.active
    rw [pc]
    omega
  · have moved := sum_moved s.pc Pc.commits i p
    have before := inv.commits
    rw [pc]
    omega
  · rintro (⟨j,cleared⟩ | stopped)
    · refine emptied ?_
      by_cases here : j = i
      · rw [here,self] at cleared
        exact .inl cleared
      · rw [other j here] at cleared
        exact .inr (.inl ⟨j,here,cleared⟩)
    · exact emptied (.inr (.inr stopped))
  · intro nobody j sleepy
    have settled := nobody i
    rw [self] at settled
    refine wake settled (fun w ne waking => nobody w (by rw [other w ne]; exact waking)) ?_
    by_cases here : j = i
    · rw [here,self] at sleepy
      exact .inl sleepy
    · rw [other j here] at sleepy
      exact .inr ⟨j,here,sleepy⟩

private theorem inv_walked (inv : s.Inv) {p : Pc} (pc : s'.pc = update s.pc i p)
    (lock : Handed s.lock s'.lock i (s.pc i).Holding p.Holding)
    (ptable : Handed s.ptable s'.ptable i (s.pc i).Dozing p.Dozing)
    (log : s'.outstanding = s.outstanding ∧ s'.committing = s.committing ∧ s'.lh = s.lh ∧ s'.admitted = s.admitted ∧
      s'.fault = s.fault)
    (active : (s.pc i).active = p.active) (commits : (s.pc i).commits = p.commits) (cleared : p.Cleared → (s.pc i).Cleared)
    (before : s.pc i ≠ .waking) (sleepy : p.Sleepy → (s.pc i).Sleepy ∨ s.committing = true ∨ s.full) : s'.Inv := by
  obtain ⟨outstanding,committing,lh,admitted,fault⟩ := log
  refine inv_moved inv pc lock ptable (by omega) (by rw [committing]; omega) ?_ (by rw [lh]; exact inv.nodup) ?_ ?_
    (by rw [fault]; exact inv.calm)
  · rw [outstanding,committing,admitted]
    exact inv.quiet
  · rw [outstanding,committing,lh]
    rintro (here | ⟨j,-,there⟩ | stopped)
    · exact inv.emptied (.inl ⟨i,cleared here⟩)
    · exact inv.emptied (.inl ⟨j,there⟩)
    · exact inv.emptied (.inr stopped)
  · intro _ nobody asleep
    have none (w : ι) : s.pc w ≠ .waking := by
      by_cases here : w = i
      · rw [here]
        exact before
      · exact nobody w here
    rw [full,outstanding,committing,lh]
    rcases asleep with here | ⟨j,-,there⟩
    · rcases sleepy here with already | blocked
      · exact inv.wake none i already
      · exact blocked
    · exact inv.wake none j there

omit [Fintype ι] in
theorem woke_same {α : Type} {f : Pc → α} (here : s.pc i = .waking) (indifferent : f .woken = f .asleep)
    (releasing : f .releasing = f .waking) (j : ι) :
    f (({s with pc := fun j => if s.pc j = Pc.asleep then .woken else s.pc j}.goto i .releasing : State ι).pc j) =
      f (s.pc j) := by
  by_cases mine : j = i
  · rw [mine,here,goto_self,releasing]
  · rw [goto_other _ mine]
    dsimp only
    split_ifs with asleep
    · rw [indifferent,asleep]
    · rfl

private theorem inv_woke (inv : s.Inv) (here : s.pc i = .waking) (free : s.ptable = none) :
    ({s with pc := fun j => if s.pc j = Pc.asleep then .woken else s.pc j}.goto i .releasing : State ι).Inv := by
  have same {α : Type} (f : Pc → α) := woke_same (f := f) here
  refine ⟨?_,?_,?_,?_,inv.quiet,inv.nodup,?_,?_,inv.calm⟩
  · intro j
    rw [same Pc.Holding rfl rfl]
    exact inv.lock j
  · intro j
    rw [same Pc.Dozing rfl rfl]
    exact inv.ptable j
  · simp only [same Pc.active rfl rfl]
    exact inv.active
  · simp only [same Pc.commits rfl rfl]
    exact inv.commits
  · simp only [same Pc.Cleared rfl rfl]
    exact inv.emptied
  · intro _ j sleepy
    have awake : ¬(s.pc j).Dozing := by
      intro dozing
      rw [inv.ptable j dozing] at free
      cases free
    by_cases mine : j = i
    · rw [mine,goto_self] at sleepy
      exact sleepy.elim
    · rw [goto_other _ mine] at sleepy
      dsimp only at sleepy
      split_ifs at sleepy with asleep
      · exact sleepy.elim
      · generalize s.pc j = q at *
        cases q <;> first | exact sleepy.elim | exact absurd trivial awake | contradiction

omit [DecidableEq ι] in
private theorem inv_faulted (inv : s.Inv) {f : Fault} (other : f ≠ .panic "log.committing") :
    ({s with fault := some f} : State ι).Inv :=
  ⟨inv.lock,inv.ptable,inv.active,inv.commits,inv.quiet,inv.nodup,inv.emptied,inv.wake,fun same => other (Option.some.inj same)⟩

private theorem inv_acquired (inv : s.Inv) {p : Pc} (change : (s.pc i).Acquires p) (free : s.lock = none) :
    ({s with lock := some i}.goto i p : State ι).Inv := by
  have facts : (s.pc i).Dozing = p.Dozing ∧ (s.pc i).active = p.active ∧ (s.pc i).commits = p.commits ∧
      (p.Cleared → (s.pc i).Cleared) ∧ s.pc i ≠ .waking ∧ ¬p.Sleepy := by
    generalize s.pc i = q at change
    cases q <;> cases p <;> first | exact change.elim | exact ⟨rfl,rfl,rfl,id,by simp,id⟩
  obtain ⟨dozing,active,commits,cleared,before,awake⟩ := facts
  refine inv_walked inv rfl (.inr (.inl ⟨free,rfl⟩)) (.inl ⟨rfl,fun has => dozing ▸ has⟩) ⟨rfl,rfl,rfl,rfl,rfl⟩ active
    commits cleared before (fun sleepy => absurd sleepy awake)

theorem Inv.step (inv : s.Inv) {m : Move} (step : s.Step i m s') : s'.Inv := by
  cases step with
  | acquired change free => exact inv_acquired inv change free
  | slept here blocked free =>
    refine inv_walked inv rfl (.inl ⟨rfl,fun _ => by rw [here]; trivial⟩) (.inr (.inl ⟨free,rfl⟩)) ⟨rfl,rfl,rfl,rfl,rfl⟩
      (by rw [here]; rfl) (by rw [here]; rfl) False.elim (by rw [here]; decide) (fun _ => .inr blocked)
  | nodded here =>
    have mine := inv.lock i (by rw [here]; trivial)
    exact inv_walked inv rfl (.inr (.inr ⟨mine,rfl,id⟩)) (.inl ⟨rfl,fun _ => by rw [here]; trivial⟩) ⟨rfl,rfl,rfl,rfl,rfl⟩
      (by rw [here]; rfl) (by rw [here]; rfl) False.elim (by rw [here]; decide) (fun _ => .inl (by rw [here]; trivial))
  | descheduled here =>
    have mine := inv.ptable i (by rw [here]; trivial)
    exact inv_walked inv rfl (.inl ⟨rfl,False.elim⟩) (.inr (.inr ⟨mine,rfl,id⟩)) ⟨rfl,rfl,rfl,rfl,rfl⟩
      (by rw [here]; rfl) (by rw [here]; rfl) False.elim (by rw [here]; decide) (fun _ => .inl (by rw [here]; trivial))
  | checked b asked here room =>
    exact inv_walked inv rfl (.inl ⟨rfl,False.elim⟩) (.inl ⟨rfl,False.elim⟩) ⟨rfl,rfl,rfl,rfl,rfl⟩
      (by rw [here]; rfl) (by rw [here]; rfl) False.elim (by rw [here]; decide) False.elim
  | absorbed b here present =>
    have mine := inv.lock i (by rw [here]; trivial)
    exact inv_walked inv rfl (.inr (.inr ⟨mine,rfl,id⟩)) (.inl ⟨rfl,False.elim⟩) ⟨rfl,rfl,rfl,rfl,rfl⟩
      (by rw [here]; rfl) (by rw [here]; rfl) False.elim (by rw [here]; simp) False.elim
  | released here =>
    have mine := inv.lock i (by rw [here]; trivial)
    exact inv_walked inv rfl (.inr (.inr ⟨mine,rfl,id⟩)) (.inl ⟨rfl,False.elim⟩) ⟨rfl,rfl,rfl,rfl,rfl⟩
      (by rw [here]; rfl) (by rw [here]; rfl) False.elim (by rw [here]; decide) False.elim
  | overflowed b here tight => exact inv_faulted inv (by decide)
  | stray here => exact inv_faulted inv (by decide)
  | overran b here long => exact inv_faulted inv (by decide)
  | admitted here allowed =>
    have mine := inv.lock i (by rw [here]; trivial)
    rw [not_or] at allowed
    refine inv_moved inv rfl (.inr (.inr ⟨mine,rfl,id⟩)) (.inl ⟨rfl,False.elim⟩) (by rw [here]; rfl) (by rw [here]; rfl)
      (fun committing => absurd committing allowed.1) inv.nodup ?_ ?_ inv.calm
    · rintro (here | ⟨j,-,there⟩ | stopped)
      · exact here.elim
      · exact inv.emptied (.inl ⟨j,there⟩)
      · exact absurd stopped.2 (Nat.succ_ne_zero _)
    · rintro - nobody (here | ⟨j,-,there⟩)
      · exact here.elim
      · have none (w : ι) : s.pc w ≠ .waking := by
          by_cases mine : w = i
          · rw [mine,here]
            decide
          · exact nobody w mine
        exact absurd (inv.wake none j there) (not_or.mpr allowed)
  | appended b here absent fits =>
    have mine := inv.lock i (by rw [here]; trivial)
    have inside : (s.pc i).active = 1 := by rw [here]; rfl
    have running := inv.running inside
    refine inv_moved inv rfl (.inr (.inr ⟨mine,rfl,id⟩)) (.inl ⟨rfl,False.elim⟩) (by rw [here]; rfl) (by rw [here]; rfl)
      inv.quiet ?_ ?_ ?_ inv.calm
    · exact List.nodup_append.mpr ⟨inv.nodup,List.nodup_singleton b,fun a member c last => by
        rw [List.mem_singleton.mp last]
        rintro rfl
        exact absent member⟩
    · rintro (here | ⟨j,-,there⟩ | stopped)
      · exact here.elim
      · have committing := inv.cleared_commits there
        rw [running] at committing
        cases committing
      · have some := inv.active_le (i := i)
        have none : s.outstanding = 0 := stopped.2
        omega
    · rintro - nobody (here | ⟨j,-,there⟩)
      · exact here.elim
      · have none (w : ι) : s.pc w ≠ .waking := by
          by_cases mine : w = i
          · rw [mine,here]
            simp
          · exact nobody w mine
        refine (inv.wake none j there).imp_right (fun full => ?_)
        rw [State.full] at full ⊢
        have longer : (s.lh ++ [b]).length = s.lh.length + 1 := List.length_append
        change (s.lh ++ [b]).length + (s.outstanding + 1) * maxopblocks > logsize
        omega
  | clashed here committing =>
    have running := inv.running (i := i) (by rw [here]; rfl)
    rw [committing] at running
    cases running
  | last here running zero =>
    have mine := inv.lock i (by rw [here]; trivial)
    have some : 1 ≤ s.outstanding := by
      have mine := inv.active_le (i := i)
      rwa [here] at mine
    have stopped : s.committing.toNat = 0 := by
      rw [Bool.not_eq_true] at running
      rw [running]
      rfl
    refine inv_moved inv rfl (.inr (.inr ⟨mine,rfl,id⟩)) (.inl ⟨rfl,False.elim⟩) ?_ ?_ (fun _ => ⟨zero,rfl⟩) inv.nodup ?_
      (fun _ _ _ => .inl rfl) inv.calm
    · rw [here]
      change s.outstanding - 1 + 1 = s.outstanding
      omega
    · rw [here,stopped]
      rfl
    · rintro (here | ⟨j,-,there⟩ | stopped)
      · exact here.elim
      · exact absurd (inv.cleared_commits there) running
      · cases stopped.1
  | left here running more =>
    have some : 1 ≤ s.outstanding := by
      have mine := inv.active_le (i := i)
      rwa [here] at mine
    refine inv_moved inv rfl (.inl ⟨rfl,fun _ => by rw [here]; trivial⟩) (.inl ⟨rfl,False.elim⟩) ?_ (by rw [here]; rfl)
      (fun committing => absurd committing running) inv.nodup ?_ (fun awake => absurd rfl awake) inv.calm
    · rw [here]
      change s.outstanding - 1 + 1 = s.outstanding
      omega
    · rintro (here | ⟨j,-,there⟩ | stopped)
      · exact here.elim
      · exact absurd (inv.cleared_commits there) running
      · exact absurd stopped.2 more
  | cleared here =>
    have committing : s.committing = true := inv.committer (i := i) (by rw [here]; rfl)
    exact inv_moved inv rfl (.inl ⟨rfl,False.elim⟩) (.inl ⟨rfl,False.elim⟩) (by rw [here]; rfl) (by rw [here]; rfl)
      inv.quiet List.nodup_nil (fun _ => rfl) (fun _ _ _ => .inl committing) inv.calm
  | finished here =>
    have committing : s.committing = true := inv.committer (i := i) (by rw [here]; rfl)
    have empty : s.lh = [] := inv.emptied (.inl ⟨i,by rw [here]; trivial⟩)
    refine inv_moved inv rfl (.inl ⟨rfl,fun _ => by rw [here]; trivial⟩) (.inl ⟨rfl,False.elim⟩) (by rw [here]; rfl) ?_
      (fun flag => by cases flag) inv.nodup (fun _ => empty) (fun awake => absurd rfl awake) inv.calm
    rw [here,committing]
    rfl
  | woke here free => exact inv_woke inv here free

theorem schedule_inv (initial : s.Initial) {turns : List (ι × Move)} (ran : schedule State.step turns s = some s') :
    s'.Inv :=
  schedule_invariant (fun _ _ _ inv ran => inv.step (step_cases ran)) initial.inv ran

end State

end

/-- What the group commit promises in every state that any interleaving reaches: while a commit is in
progress no operation is, and none was admitted since it began; `end_op` never finds a commit in progress;
no block is twice in the log header; and a process sleeps only as long as it has to. -/
theorem group_commit_safe {ι : Type} [DecidableEq ι] [Fintype ι] {s s' : State ι} (initial : s.Initial)
    {turns : List (ι × Move)} (ran : schedule State.step turns s = some s') :
    (s'.committing = true → s'.outstanding = 0 ∧ s'.admitted = 0) ∧ s'.fault ≠ some (.panic "log.committing") ∧ s'.lh.Nodup ∧
      (s'.lock = none → ∀ i, s'.pc i = .asleep → s'.committing = true ∨ s'.full) := by
  have inv := State.schedule_inv initial ran
  refine ⟨inv.quiet,inv.calm,inv.nodup,fun free i asleep => ?_⟩
  refine inv.wake (fun w waking => ?_) i (by rw [asleep]; trivial)
  have held := inv.lock w (by rw [waking]; trivial)
  rw [free] at held
  cases held

/-- The log of an idle machine with two processes. -/
private def quietLog : State Bool := ⟨30,0,false,[],none,none,none,fun _ => .idle,fun _ => ∅,0⟩

private def sleepTurns : List (Bool × Move) :=
  [(false,.begin),(false,.go),(false,.finish),(false,.go),(true,.begin),(true,.go),(true,.go),(true,.go)]

/-- One process commits an empty transaction while the other one goes to sleep. -/
theorem group_commit_safe_asleep : quietLog.Initial ∧ ∃ s', schedule State.step sleepTurns quietLog = some s' ∧
    s'.lock = none ∧ s'.pc true = .asleep ∧
    (s'.committing = true → s'.outstanding = 0 ∧ s'.admitted = 0) ∧ s'.fault ≠ some (.panic "log.committing") ∧ s'.lh.Nodup ∧
      (s'.lock = none → ∀ i, s'.pc i = .asleep → s'.committing = true ∨ s'.full) := by
  have initial : quietLog.Initial := ⟨rfl,rfl,rfl,rfl,rfl,rfl,fun _ => rfl⟩
  have ran : schedule State.step sleepTurns quietLog = some _ := rfl
  exact ⟨initial,_,ran,rfl,rfl,group_commit_safe initial ran⟩

end Xv6Ext2.GroupCommit
