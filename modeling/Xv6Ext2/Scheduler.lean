import Xv6Ext2.ProcessRuns

/-! `scheduler` on any number of CPUs. A CPU that takes `ptable.lock` keeps it over the switch: the process that `scheduler` has
switched to releases it, and a process that calls `sched` leaves it to the scheduler of its CPU. -/
namespace Xv6Ext2.Ptable
open Lib
open Function (update update_apply)

/-- Where a CPU is: in `scheduler` without the lock; in its loop, at a slot; in process `i`, without the lock; back from the
`swtch` to process `i`. -/
inductive Cpu where
  | idle
  | scan (k : Nat)
  | on (i : Slot)
  | back (i : Slot)
  deriving DecidableEq

/-- `c->proc` -/
def Cpu.proc : Cpu → Option Slot
  | .idle => none
  | .scan _ => none
  | .on i => some i
  | .back i => some i

def Cpu.Holds : Cpu → Prop
  | .idle => False
  | .scan _ => True
  | .on _ => False
  | .back _ => True

structure Machine (ι : Type) where
  table : State
  cpu : ι → Cpu
  lock : Option ι

/-- What a CPU does next: `scheduler` goes on, or its process, or there is an interrupt that calls `wakeup`. -/
inductive Turn where
  | scheduler
  | process (m : Move)
  | interrupt (address : UInt32)

/-- The parts of `fork` and of a trap that need no lock. -/
def Move.unlocked : Move → Bool
  | .kalloc _ => true
  | .copyuvm _ => true
  | .fault => true
  | _ => false

section

variable {ι : Type} [DecidableEq ι]

namespace Machine

def goto (s : Machine ι) (c : ι) (place : Cpu) (lock : Option ι) : Machine ι := ⟨s.table,update s.cpu c place,lock⟩

/-- The process `i` has come to the end of its section with the lock, or to `sched`. -/
def leave (s : Machine ι) (c : ι) (i : Slot) (t : State) : Machine ι :=
  if (t.proc i).state = .running then ⟨t,update s.cpu c (.on i),none⟩ else ⟨t,update s.cpu c (.back i),some c⟩

def step (s : Machine ι) (turn : ι × Turn) : Option (Machine ι) :=
  let c := turn.1
  match s.cpu c, turn.2 with
  | .idle, .scheduler => if s.lock = none then some (s.goto c (.scan 0) (some c)) else none
  | .scan k, .scheduler =>
    if inside : k < nproc then
      if (s.table.proc ⟨k,inside⟩).state = .runnable then (Ptable.step s.table (⟨k,inside⟩,.switch)).map (s.leave c ⟨k,inside⟩)
      else some (s.goto c (.scan (k + 1)) s.lock)
    else some (s.goto c .idle none)
  | .back i, .scheduler => some (s.goto c (.scan (i + 1)) s.lock)
  | .on i, .process m =>
    if m.unlocked then (Ptable.step s.table (i,m)).map fun t => {s with table := t}
    else if s.lock = none then (Ptable.step s.table (i,m)).map (s.leave c i)
    else none
  | _, .interrupt a => if s.lock = none then (Ptable.step s.table (0,.wakeup a)).map fun t => {s with table := t} else none
  | _, _ => none

/-- All CPUs enter `scheduler` after `userinit`. -/
def start : Machine ι := ⟨boot,fun _ => .idle,none⟩

end Machine

end

section

variable {s s' : State} {i j : Slot} {m : Move}

/-- Without the lock `fork` gives up its new process at most. -/
theorem Moves.unlocked (moves : Moves s i m s') (tree : Tree s) (free : m.unlocked = true) (j : Slot) :
    (s'.proc j).state = (s.proc j).state ∨ (s.proc j).state = .embryo ∧ (s'.proc j).state = .unused := by
  have young {np : Slot} {pc : Pc} (here : (s.proc i).pc = pc) (child : pc.child = some np) : (s.proc np).state = .embryo :=
    (tree.forking i np (here ▸ child)).1
  cases moves with
  | kalloc np page on here fresh =>
    have embryo := young here rfl
    cases page <;> rw [forkStack] <;> dsimp only <;> grind
  | copyuvm np space on here fresh =>
    have embryo := young here rfl
    obtain ⟨pages,message,freed⟩ := freeStack_eq s np
    have table : (freeStack s np).proc = s.proc := by rw [freed]
    cases space <;> rw [forkCopy] <;> dsimp only <;> grind
  | fault on here =>
    rw [State.note_proc,State.set_proc]
    grind
  | _ => cases free

/-- With the lock a process does not make another one run, and does not stop it. -/
theorem Effect.running (effect : Effect s i m s') (tree : Tree s) (locked : m.unlocked = false) (other : j ≠ i) :
    (s'.proc j).state = .running ↔ (s.proc j).state = .running := by
  cases effect with
  | quiet quiet => exact (quiet.state j).2.2 other
  | panic => rfl
  | fork np free => grind
  | ready np here =>
    have embryo := (tree.forking i np (by rw [here]; rfl)).1
    rw [forkReady]
    grind
  | exit on first =>
    rw [exit_proc first]
    grind [Woken]
  | @reap _ t p quiet on parent dead =>
    have states := quiet.state j
    obtain ⟨pages,spaces,message,reaped⟩ := reap_eq t i p
    rw [reaped,State.goto_proc,if_neg other,State.note_proc,State.set_proc]
    grind
  | kill pid =>
    rw [Ptable.kill]
    split
    · rw [State.note_proc]
      grind
    · rw [State.note_proc]
  | _ => cases locked

end

section

variable {ι : Type} [DecidableEq ι] {s s' : Machine ι} {c : ι} {i : Slot} {t : State}

/-- A CPU in a process runs it, one that comes back from a process does not, and both are alone with it; the lock is held by the
CPU that is in the loop or comes back. -/
structure Exclusive (s : Machine ι) : Prop where
  tree : Tree s.table
  lock : ∀ c, s.lock = some c ↔ (s.cpu c).Holds
  on : ∀ c i, s.cpu c = .on i → (s.table.proc i).state = .running
  back : ∀ c i, s.cpu c = .back i → (s.table.proc i).state ≠ .running
  one : ∀ c c' i, (s.cpu c).proc = some i → (s.cpu c').proc = some i → c = c'
  running : ∀ i, (s.table.proc i).state = .running → ∃ c, s.cpu c = .on i

omit [DecidableEq ι] in
theorem Exclusive.current (ex : Exclusive s) (has : (s.cpu c).proc = some i) :
    (s.table.proc i).state = .running ∨ s.lock = some c ∧ s.cpu c = .back i := by
  cases place : s.cpu c with
  | on j =>
    rw [place] at has
    exact .inl (ex.on c i (by rw [place,Option.some.inj has]))
  | back j =>
    rw [place] at has
    exact .inr ⟨(ex.lock c).mpr (by rw [place]; trivial),by rw [Option.some.inj has]⟩
  | _ =>
    rw [place] at has
    cases has

attribute [local grind] Cpu.proc Cpu.Holds

omit [DecidableEq ι] in
/-- The table changes, and the CPUs stay where they are. -/
theorem Exclusive.aside (ex : Exclusive s) (tree : Tree t) (same : ∀ j, (t.proc j).state = .running ↔ (s.table.proc j).state = .running) :
    Exclusive {s with table := t} := by
  obtain ⟨-,lock,on,back,one,running⟩ := ex
  exact ⟨tree,lock,by grind,by grind,one,by grind⟩

/-- A CPU without a process goes on in `scheduler`. -/
theorem Exclusive.goto (ex : Exclusive s) {place : Cpu} {lock : Option ι} (mine : s.lock = none ∨ s.lock = some c)
    (off : ∀ i, s.cpu c ≠ .on i) (gone : place.proc = none) (held : lock = if place = .idle then none else some c) :
    Exclusive (s.goto c place lock) := by
  obtain ⟨tree,locked,on,back,one,running⟩ := ex
  have holds : place.Holds ↔ place ≠ .idle := by cases place <;> simp_all [Cpu.Holds,Cpu.proc]
  refine ⟨tree,?_,?_,?_,?_,?_⟩
  all_goals simp only [Machine.goto,update_apply]
  all_goals grind

/-- A process that the CPU has or takes comes to the end of its section. -/
theorem Exclusive.leave (ex : Exclusive s) (tree : Tree t) (mine : s.lock = none ∨ s.lock = some c)
    (off : ∀ j, s.cpu c = .on j → j = i) (alone : ∀ c', (s.cpu c').proc = some i → c' = c)
    (others : ∀ j ≠ i, (t.proc j).state = .running ↔ (s.table.proc j).state = .running) : Exclusive (s.leave c i t) := by
  obtain ⟨-,locked,on,back,one,running⟩ := ex
  rw [Machine.leave]
  split_ifs with runs
  · refine ⟨tree,?_,?_,?_,?_,?_⟩
    all_goals simp only [update_apply]
    all_goals grind
  · refine ⟨tree,?_,?_,?_,?_,?_⟩
    all_goals simp only [update_apply]
    all_goals grind

/-- The steps of CPU `c`: it goes on in `scheduler`, takes a process or goes on in its own with the lock, or leaves all CPUs where they
are. While a CPU comes back from a process, only what needs no lock is done elsewhere. -/
inductive Steps (s : Machine ι) (c : ι) : Machine ι → Prop where
  | goto {place : Cpu} {lock : Option ι} (mine : s.lock = none ∨ s.lock = some c) (off : ∀ i, s.cpu c ≠ .on i) (gone : place.proc = none)
      (held : lock = if place = .idle then none else some c) : Steps s c (s.goto c place lock)
  | leave {i : Slot} {m : Move} {t : State} (moved : Ptable.step s.table (i,m) = some t) (locked : m.unlocked = false)
      (mine : s.lock = none ∨ s.lock = some c) (off : ∀ j, s.cpu c = .on j → j = i) (alone : ∀ c', (s.cpu c').proc = some i → c' = c)
      (front : ∀ j, s.cpu c ≠ .back j) : Steps s c (s.leave c i t)
  | aside {i : Slot} {m : Move} {t : State} (moved : Ptable.step s.table (i,m) = some t)
      (free : m.unlocked = true ∨ s.lock = none ∧ ∃ a, m = .wakeup a) : Steps s c {s with table := t}

theorem Exclusive.steps {turn : ι × Turn} (ex : Exclusive s) (stepped : s.step turn = some s') : Steps s turn.1 s' := by
  obtain ⟨c,turn⟩ := turn
  unfold Machine.step at stepped
  dsimp only at stepped
  split at stepped
  case h_1 here =>
    split_ifs at stepped with free
    cases stepped
    exact .goto (.inl free) (by rw [here]; simp) rfl rfl
  case h_2 k here =>
    have mine : s.lock = some c := (ex.lock c).mpr (by rw [here]; trivial)
    split_ifs at stepped with inside ready
    · obtain ⟨t,moved,rfl⟩ := Option.map_eq_some_iff.mp stepped
      refine .leave moved rfl (.inr mine) (by rw [here]; simp) (fun c' has => ?_) (by rw [here]; simp)
      obtain runs | ⟨held,-⟩ := ex.current has
      · rw [ready] at runs
        cases runs
      · exact Option.some.inj (held.symm.trans mine)
    · cases stepped
      exact .goto (.inr mine) (by rw [here]; simp) rfl mine
    · cases stepped
      exact .goto (.inr mine) (by rw [here]; simp) rfl rfl
  case h_3 i here =>
    have mine : s.lock = some c := (ex.lock c).mpr (by rw [here]; trivial)
    cases stepped
    exact .goto (.inr mine) (by rw [here]; simp) rfl mine
  case h_4 i m here =>
    have has : (s.cpu c).proc = some i := by rw [here]; rfl
    split_ifs at stepped with aside free
    · obtain ⟨t,moved,rfl⟩ := Option.map_eq_some_iff.mp stepped
      exact .aside moved (.inl aside)
    · obtain ⟨t,moved,rfl⟩ := Option.map_eq_some_iff.mp stepped
      exact .leave moved (Bool.not_eq_true _ ▸ aside) (.inl free) (by rw [here]; simp) (fun c' has' => ex.one c' c i has' has)
        (by rw [here]; simp)
  case h_5 a =>
    split_ifs at stepped with free
    obtain ⟨t,moved,rfl⟩ := Option.map_eq_some_iff.mp stepped
    exact .aside moved (.inr ⟨free,a,rfl⟩)
  case h_6 => cases stepped

theorem Exclusive.step (ex : Exclusive s) (steps : Steps s c s') : Exclusive s' := by
  cases steps with
  | goto mine off gone held => exact ex.goto mine off gone held
  | leave moved locked mine off alone front =>
    exact ex.leave (ex.tree.step moved) mine off alone fun j other => (step_moves moved).2.effect.running ex.tree locked other
  | aside moved free =>
    have moves := (step_moves moved).2
    refine ex.aside (ex.tree.step moved) fun j => ?_
    obtain unlocked | ⟨-,a,rfl⟩ := free
    · have kept := moves.unlocked ex.tree unlocked j
      grind
    · cases moves
      simp only [wakeup1]
      grind

omit [DecidableEq ι] in
theorem start_exclusive : Exclusive (Machine.start : Machine ι) := by
  have none (i : Slot) : (boot.proc i).state ≠ .running := by
    simp only [boot]
    grind
  refine ⟨boot_tree,fun c => ?_,fun c i on => ?_,fun c i back => ?_,fun c c' i has => ?_,fun i runs => absurd runs (none i)⟩
  · simp [Machine.start,Cpu.Holds]
  · cases on
  · cases back
  · cases has

theorem leave_table (s : Machine ι) (c : ι) (i : Slot) (t : State) : (s.leave c i t).table = t := by
  rw [Machine.leave]
  split <;> rfl

theorem Exclusive.reports {q : Slot} {pid : UInt32} (ex : Exclusive s) (steps : Steps s c s')
    (reported : s'.table.history = .reaped q pid :: s.table.history) :
    ∃ p, Buried s.table s'.table q p pid ∧ ∀ c, (s.cpu c).proc ≠ some p := by
  -- A CPU that comes back from a zombie has the lock.
  have locked {p : Slot} (dead : (s.table.proc p).state = .zombie) {c' : ι} (has : (s.cpu c').proc = some p) :
      s.lock = some c' ∧ s.cpu c' = .back p := (ex.current has).resolve_left fun runs => by rw [runs] at dead; cases dead
  cases steps with
  | goto => exact absurd reported.symm (List.cons_ne_self _ _)
  | leave moved _ mine off alone front =>
    rw [leave_table] at reported ⊢
    obtain ⟨p,buried⟩ := step_buries ex.tree moved reported
    refine ⟨p,buried,fun c' has => ?_⟩
    obtain ⟨held,back⟩ := locked buried.dead has
    obtain free | mine := mine
    · cases free.symm.trans held
    · rw [← Option.some.inj (mine.symm.trans held)] at back
      exact front p back
  | aside moved free =>
    obtain ⟨p,buried⟩ := step_buries ex.tree moved reported
    refine ⟨p,buried,fun c' has => ?_⟩
    obtain unlocked | ⟨free,-⟩ := free
    · have kept := (step_moves moved).2.unlocked ex.tree unlocked p
      have dead := buried.dead
      have gone := buried.gone
      grind
    · cases free.symm.trans (locked buried.dead has).1

/-- In every state that any CPUs reach from the start of `scheduler`: while the lock is free, a process is running if and only if it
is the current one of one CPU; no process is current on two CPUs; and `wait` never reports and frees a process that is current. -/
theorem scheduler_exclusive {turns : List (ι × Turn)} {s : Machine ι} (ran : schedule Machine.step turns Machine.start = some s) :
    (s.lock = none → ∀ i, (s.table.proc i).state = .running ↔ ∃! c, (s.cpu c).proc = some i) ∧
    (∀ c c' i, (s.cpu c).proc = some i → (s.cpu c').proc = some i → c = c') ∧
    ∀ turn s' q pid, s.step turn = some s' → s'.table.history = .reaped q pid :: s.table.history →
      ∃ p, Buried s.table s'.table q p pid ∧ ∀ c, (s.cpu c).proc ≠ some p := by
  have ex : Exclusive s := schedule_invariant (fun _ _ _ ex stepped => ex.step (ex.steps stepped)) start_exclusive ran
  refine ⟨fun free i => ⟨fun runs => ?_,fun only => ?_⟩,ex.one,fun _ _ _ _ stepped reported => ex.reports (ex.steps stepped) reported⟩
  · obtain ⟨c,on⟩ := ex.running i runs
    have has : (s.cpu c).proc = some i := by rw [on]; rfl
    exact ⟨c,has,fun c' has' => ex.one c' c i has' has⟩
  · obtain ⟨c,has,-⟩ := only
    obtain runs | ⟨held,-⟩ := ex.current has
    · exact runs
    · cases free.symm.trans held

end

/-- A CPU forks in the first process, a second CPU runs the child to its `exit` and goes through its loop. -/
private def twoCpus : List (Bool × Turn) :=
  [(false,.scheduler),(false,.scheduler),(false,.process .fork),(false,.process (.kalloc (some 1))),
    (false,.process (.copyuvm (some 1))),(false,.process .ready),(true,.scheduler),(true,.scheduler),(true,.scheduler),
    (true,.process .exit)] ++ List.replicate 64 (true,.scheduler)

theorem scheduler_exclusive_child :
    ∃ s s', schedule Machine.step twoCpus Machine.start = some s ∧ s.step (false,.process .wait) = some s' ∧
      (∃! c, (s.cpu c).proc = some 0) ∧ ∃ p, Buried s.table s'.table 0 p 2 ∧ ∀ c, (s.cpu c).proc ≠ some p := by
  have returns : ((schedule Machine.step twoCpus Machine.start).bind fun s => (s.step (false,.process .wait)).map fun s' =>
      (s.lock,(s.table.proc 0).state,s.table.history,s'.table.history)) =
      some (none,.running,[.exited 2,.allocated 1 false,.allocated 0 false],
        [.reaped 0 2,.exited 2,.allocated 1 false,.allocated 0 false]) := by decide +kernel
  obtain ⟨s,ran,rest⟩ := Option.bind_eq_some_iff.mp returns
  obtain ⟨s',stepped,seen⟩ := Option.map_eq_some_iff.mp rest
  simp only [Prod.mk.injEq] at seen
  obtain ⟨free,runs,before,after⟩ := seen
  have facts := scheduler_exclusive ran
  exact ⟨s,s',ran,stepped,(facts.1 free 0).mp runs,facts.2.2 _ s' 0 2 stepped (by rw [before,after])⟩

end Xv6Ext2.Ptable
