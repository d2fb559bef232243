import Xv6Ext2.Lib.Schedule
import Mathlib

/-! The process table under `fork`, `exit`, `wait`, `kill`, `sleep` and `wakeup` of any processes. A step is
a section of code with `ptable.lock` held, or the code of `fork` between two such sections. The scheduler
keeps the lock while it switches to a process, so what that process does until it releases the lock belongs
to the step that schedules it. -/
namespace Xv6Ext2.Ptable
open Lib
open Function (update update_apply update_of_ne update_self)

def nproc : Nat := 64

instance : NeZero nproc := ⟨by decide⟩

abbrev Slot := Fin nproc

/-- `enum procstate` -/
inductive ProcState where
  | unused
  | embryo
  | sleeping
  | runnable
  | running
  | zombie
  deriving DecidableEq

/-- What a process sleeps on: `wait` on the process itself, all others on other addresses. -/
inductive Chan where
  | proc (i : Slot)
  | other (address : UInt32)
  deriving DecidableEq

/-- Where a process is: outside the functions of this file (`user`); in `fork`, behind the first section of
`allocproc` (`stack`), behind `allocproc` (`copy`), and before its last section (`ready`), with the new
process `np`; in the `sleep` of `wait`, or in a `sleep` elsewhere. -/
inductive Pc where
  | user
  | stack (np : Slot)
  | copy (np : Slot)
  | ready (np : Slot)
  | wait
  | asleep
  deriving DecidableEq

/-- `struct proc`; a stack and an address space are known by numbers. -/
structure Proc where
  state : ProcState
  pid : UInt32
  parent : Option Slot
  chan : Option Chan
  killed : Bool
  kstack : Option Nat
  pgdir : Option Nat
  pc : Pc
  deriving DecidableEq

/-- What a run has done: `allocproc` took slot `i` for a new process, whose `killed` it left as it was; `kill`
was called, and set `killed` in a slot in state `found` and returned 0, or found nothing; the process in slot
`i` faulted; one with this pid exited; the `wait` of slot `parent` returned this pid. -/
inductive Event where
  | allocated (i : Slot) (killed : Bool)
  | killed (pid : UInt32) (found : Option ProcState)
  | faulted (i : Slot)
  | exited (pid : UInt32)
  | reaped (parent : Slot) (pid : UInt32)
  deriving DecidableEq

/-- `ptable`, with `nextpid` and `initproc`; the kernel stacks and address spaces that are in use; what has
happened, latest first. -/
structure State where
  proc : Slot → Proc
  nextpid : UInt32
  initproc : Slot
  kstacks : Finset Nat
  spaces : Finset Nat
  panicked : Option String
  history : List Event

namespace State

def set (s : State) (i : Slot) (p : Proc) : State := {s with proc := update s.proc i p}

def goto (s : State) (i : Slot) (pc : Pc) : State := s.set i {s.proc i with pc := pc}

def note (s : State) (e : Event) : State := {s with history := e :: s.history}

def panic (s : State) (message : String) : State := {s with panicked := some message}

end State

/-- `wakeup1(chan)` -/
def wakeup1 (t : Slot → Proc) (chan : Option Chan) : Slot → Proc := fun i =>
  if (t i).state = .sleeping ∧ (t i).chan = chan then {t i with state := .runnable} else t i

def allocproc (s : State) : Option (Slot × State) :=
  match (List.finRange nproc).find? (fun p => (s.proc p).state = .unused) with
  | some p => some (p,{s.set p {s.proc p with state := .embryo, pid := s.nextpid} with nextpid := s.nextpid + 1})
  | none => none

def fork (s : State) (i : Slot) : State :=
  match allocproc s with
  | some (np,s) => (s.goto i (.stack np)).note (.allocated np (s.proc np).killed)
  | none => s

/-- The rest of `allocproc`, with what `kalloc` returns. -/
def forkStack (s : State) (i np : Slot) : Option Nat → State
  | none => (s.set np {s.proc np with kstack := none, state := .unused}).goto i .user
  | some page => {(s.set np {s.proc np with kstack := some page}).goto i (.copy np) with kstacks := insert page s.kstacks}

/-- `kfree(np->kstack)` -/
def freeStack (s : State) (i : Slot) : State :=
  match (s.proc i).kstack with
  | some page => {s with kstacks := s.kstacks.erase page}
  | none => s.panic "kfree"

/-- `freevm(p->pgdir)` -/
def freeSpace (s : State) (i : Slot) : State :=
  match (s.proc i).pgdir with
  | some space => {s with spaces := s.spaces.erase space}
  | none => s.panic "freevm: no pgdir"

/-- `fork` behind `allocproc`, with what `copyuvm` returns. -/
def forkCopy (s : State) (i np : Slot) : Option Nat → State
  | none => ((freeStack s np).set np {s.proc np with pgdir := none, kstack := none, state := .unused}).goto i .user
  | some space =>
    {(s.set np {s.proc np with pgdir := some space, parent := some i}).goto i (.ready np) with spaces := insert space s.spaces}

/-- The last section of `fork`. -/
def forkReady (s : State) (i np : Slot) : State :=
  (s.set np {s.proc np with state := .runnable}).goto i .user

/-- A round of the loop of `exit` over the table. -/
def adopt (init i : Slot) (t : Slot → Proc) (p : Slot) : Slot → Proc :=
  if (t p).parent = some i then
    let t := update t p {t p with parent := some init}
    if (t p).state = .zombie then wakeup1 t (some (.proc init)) else t
  else t

def exit (s : State) (i : Slot) : State :=
  if i = s.initproc then s.panic "init exiting"
  else
    let t := wakeup1 s.proc ((s.proc i).parent.map .proc)
    let t := (List.finRange nproc).foldl (adopt s.initproc i) t
    {s with proc := update t i {t i with state := .zombie}}.note (.exited (s.proc i).pid)

/-- `wait` has found that `p` exited. -/
def reap (s : State) (i p : Slot) : State :=
  ((freeSpace (freeStack s p) p).set p
    {s.proc p with kstack := none, pid := 0, parent := none, killed := false, state := .unused}).note (.reaped i (s.proc p).pid)

/-- A round of `wait`, from the scan of the table to its return or its `sleep`. -/
def wait (s : State) (i : Slot) : State :=
  match (List.finRange nproc).find? (fun p => (s.proc p).parent = some i ∧ (s.proc p).state = .zombie) with
  | some p => (reap s i p).goto i .user
  | none =>
    if (∀ p, (s.proc p).parent ≠ some i) ∨ (s.proc i).killed then s.goto i .user
    else s.set i {s.proc i with chan := some (.proc i), state := .sleeping, pc := .wait}

def kill (s : State) (pid : UInt32) : State :=
  match (List.finRange nproc).find? (fun p => (s.proc p).pid = pid) with
  | some p =>
    (s.set p {s.proc p with
      killed := true
      state := if (s.proc p).state = .sleeping then .runnable else (s.proc p).state}).note (.killed pid (some (s.proc p).state))
  | none => s.note (.killed pid none)

def sleep (s : State) (i : Slot) (address : UInt32) : State :=
  s.set i {s.proc i with chan := some (.other address), state := .sleeping, pc := .asleep}

/-- `scheduler` switches to process `i`, which goes on behind `sched`. -/
def switch (s : State) (i : Slot) : State :=
  match (s.proc i).pc with
  | .wait => wait (s.set i {s.proc i with state := .running, chan := none}) i
  | .asleep => s.set i {s.proc i with state := .running, chan := none, pc := .user}
  | _ => s.set i {s.proc i with state := .running}

/-- What a process does next, or what is done to it. -/
inductive Move where
  | fork
  | kalloc (page : Option Nat)
  | copyuvm (space : Option Nat)
  | ready
  | exit
  | wait
  | kill (pid : UInt32)
  | sleep (address : UInt32)
  | wakeup (address : UInt32)
  | fault
  | yield
  | switch

/-- A step of the process in slot `turn.1`. An interrupt may call `wakeup` at any time. -/
def step (s : State) (turn : Slot × Move) : Option State :=
  let i := turn.1
  if s.panicked ≠ none then none
  else match (s.proc i).state, (s.proc i).pc, turn.2 with
    | _, _, .wakeup address => some {s with proc := wakeup1 s.proc (some (.other address))}
    | .runnable, _, .switch => some (switch s i)
    | .running, _, .yield => some (s.set i {s.proc i with state := .runnable})
    | .running, .user, .fork => some (fork s i)
    | .running, .stack np, .kalloc page => if ∃ x ∈ page, x ∈ s.kstacks then none else some (forkStack s i np page)
    | .running, .copy np, .copyuvm space => if ∃ x ∈ space, x ∈ s.spaces then none else some (forkCopy s i np space)
    | .running, .ready np, .ready => some (forkReady s i np)
    | .running, .user, .exit => some (exit s i)
    | .running, .user, .wait => some (wait s i)
    | .running, .user, .kill pid => some (kill s pid)
    | .running, .user, .sleep address => some (sleep s i address)
    | .running, .user, .fault => some ((s.set i {s.proc i with killed := true}).note (.faulted i))
    | _, _, _ => none

/-- The table after `userinit`. -/
def boot : State where
  proc i :=
    if i = 0 then ⟨.runnable,1,none,none,false,some 0,some 0,.user⟩
    else ⟨.unused,0,none,none,false,none,none,.user⟩
  nextpid := 2
  initproc := 0
  kstacks := {0}
  spaces := {0}
  panicked := none
  history := [.allocated 0 false]

inductive Moves (s : State) (i : Slot) : Move → State → Prop where
  | wakeup (a : UInt32) : Moves s i (.wakeup a) {s with proc := wakeup1 s.proc (some (.other a))}
  | switch (ready : (s.proc i).state = .runnable) : Moves s i .switch (switch s i)
  | yield (on : (s.proc i).state = .running) : Moves s i .yield (s.set i {s.proc i with state := .runnable})
  | fork (on : (s.proc i).state = .running) (here : (s.proc i).pc = .user) : Moves s i .fork (fork s i)
  | kalloc (np : Slot) (page : Option Nat) (on : (s.proc i).state = .running) (here : (s.proc i).pc = .stack np)
      (fresh : ∀ x ∈ page, x ∉ s.kstacks) : Moves s i (.kalloc page) (forkStack s i np page)
  | copyuvm (np : Slot) (space : Option Nat) (on : (s.proc i).state = .running) (here : (s.proc i).pc = .copy np)
      (fresh : ∀ x ∈ space, x ∉ s.spaces) : Moves s i (.copyuvm space) (forkCopy s i np space)
  | ready (np : Slot) (on : (s.proc i).state = .running) (here : (s.proc i).pc = .ready np) :
      Moves s i .ready (forkReady s i np)
  | exit (on : (s.proc i).state = .running) (here : (s.proc i).pc = .user) : Moves s i .exit (exit s i)
  | wait (on : (s.proc i).state = .running) (here : (s.proc i).pc = .user) : Moves s i .wait (wait s i)
  | kill (pid : UInt32) : Moves s i (.kill pid) (kill s pid)
  | sleep (a : UInt32) (on : (s.proc i).state = .running) (here : (s.proc i).pc = .user) : Moves s i (.sleep a) (sleep s i a)
  | fault (on : (s.proc i).state = .running) (here : (s.proc i).pc = .user) :
      Moves s i .fault ((s.set i {s.proc i with killed := true}).note (.faulted i))

theorem step_moves {s s' : State} {i : Slot} {m : Move} (stepped : step s (i,m) = some s') :
    s.panicked = none ∧ Moves s i m s' := by
  unfold step at stepped
  dsimp only at stepped
  split at stepped
  · cases stepped
  rename_i calm
  refine ⟨not_not.mp calm,?_⟩
  split at stepped
  case h_1 => cases stepped; exact .wakeup _
  case h_2 => cases stepped; exact .switch ‹_›
  case h_3 => cases stepped; exact .yield ‹_›
  case h_4 => cases stepped; exact .fork ‹_› ‹_›
  case h_5 =>
    split at stepped
    · cases stepped
    · rename_i fresh
      cases stepped
      exact .kalloc _ _ ‹_› ‹_› fun x given taken => fresh ⟨x,given,taken⟩
  case h_6 =>
    split at stepped
    · cases stepped
    · rename_i fresh
      cases stepped
      exact .copyuvm _ _ ‹_› ‹_› fun x given taken => fresh ⟨x,given,taken⟩
  case h_7 => cases stepped; exact .ready _ ‹_› ‹_›
  case h_8 => cases stepped; exact .exit ‹_› ‹_›
  case h_9 => cases stepped; exact .wait ‹_› ‹_›
  case h_10 => cases stepped; exact .kill _
  case h_11 => cases stepped; exact .sleep _ ‹_› ‹_›
  case h_12 => cases stepped; exact .fault ‹_› ‹_›
  case h_13 => cases stepped

section

variable {s s' : State} {i : Slot}

@[grind =] theorem State.set_proc (s : State) (i j : Slot) (p : Proc) : (s.set i p).proc j = if j = i then p else s.proc j :=
  update_apply _ _ _ _

@[grind =] theorem State.goto_proc (s : State) (i j : Slot) (pc : Pc) :
    (s.goto i pc).proc j = if j = i then {s.proc i with pc := pc} else s.proc j :=
  update_apply _ _ _ _

@[grind =] theorem State.note_proc (s : State) (e : Event) : (s.note e).proc = s.proc := rfl

@[grind =] theorem State.set_initproc (s : State) (i : Slot) (p : Proc) : (s.set i p).initproc = s.initproc := rfl

@[grind =] theorem State.goto_initproc (s : State) (i : Slot) (pc : Pc) : (s.goto i pc).initproc = s.initproc := rfl

/-- The table after the rounds of `adopt` for some slots. -/
def handed (init i : Slot) (members : List Slot) (t : Slot → Proc) (j : Slot) : Proc :=
  {t j with
    parent := if (t j).parent = some i ∧ j ∈ members then some init else (t j).parent
    state :=
      if (t j).state = .sleeping ∧ (t j).chan = some (.proc init) ∧
          ∃ p ∈ members, (t p).parent = some i ∧ (t p).state = .zombie then .runnable
      else (t j).state}

theorem adopt_eq (init i : Slot) (t : Slot → Proc) (p : Slot) : adopt init i t p = handed init i [p] t := by
  funext j
  simp only [adopt,handed,List.mem_singleton,exists_eq_left]
  by_cases child : (t p).parent = some i
  · by_cases dead : (t p).state = .zombie
    · by_cases same : j = p
      · subst same
        simp [child,dead,wakeup1]
      · simp only [child,dead,wakeup1,same,update_self,update_of_ne same,if_true,and_true,and_false,if_false]
        split_ifs <;> rfl
    · by_cases same : j = p
      · subst same
        simp [child,dead]
      · simp [child,dead,same]
  · by_cases same : j = p
    · subst same
      simp [child]
    · simp [child,same]

theorem handed_cons (init i : Slot) {p : Slot} {members : List Slot} (fresh : p ∉ members) (t : Slot → Proc) :
    handed init i members (handed init i [p] t) = handed init i (p :: members) t := by
  have zombies (q : Slot) (member : q ∈ members) : (handed init i [p] t q).parent = (t q).parent ∧
      ((handed init i [p] t q).state = .zombie ↔ (t q).state = .zombie) := by
    have differ : q ≠ p := fun same => fresh (same ▸ member)
    simp only [handed,List.mem_singleton,exists_eq_left,differ,and_false,if_false,true_and]
    split_ifs with woken
    · simp [woken.1]
    · rfl
  have some_zombie : (∃ q ∈ members, (handed init i [p] t q).parent = some i ∧ (handed init i [p] t q).state = .zombie) ↔
      ∃ q ∈ members, (t q).parent = some i ∧ (t q).state = .zombie :=
    exists_congr fun q => and_congr_right fun member => by rw [(zombies q member).1,(zombies q member).2]
  funext j
  rw [handed]
  simp only [some_zombie]
  simp only [handed,List.mem_cons,exists_eq_or_imp]
  congr 1
  · grind
  · grind

theorem foldl_adopt (init i : Slot) {members : List Slot} (nodup : members.Nodup) (t : Slot → Proc) :
    members.foldl (adopt init i) t = handed init i members t := by
  induction members generalizing t with
  | nil =>
    funext j
    simp [handed]
  | cons p members ih =>
    obtain ⟨fresh,rest⟩ := List.nodup_cons.mp nodup
    rw [List.foldl_cons,ih rest,adopt_eq,handed_cons init i fresh]

/-- `exit` wakes the parent, and `initproc` if it inherits a zombie. -/
def Woken (s : State) (i j : Slot) : Prop :=
  (s.proc j).state = .sleeping ∧ ((s.proc j).chan = (s.proc i).parent.map .proc ∨
    (s.proc j).chan = some (.proc s.initproc) ∧ ∃ p, (s.proc p).parent = some i ∧ (s.proc p).state = .zombie)

instance (s : State) (i j : Slot) : Decidable (Woken s i j) := inferInstanceAs (Decidable (_ ∧ _))

theorem exit_proc (other : i ≠ s.initproc) (j : Slot) : (exit s i).proc j =
    {s.proc j with
      parent := if (s.proc j).parent = some i then some s.initproc else (s.proc j).parent
      state := if j = i then .zombie else if Woken s i j then .runnable else (s.proc j).state} := by
  have dead (p : Slot) : (wakeup1 s.proc ((s.proc i).parent.map .proc) p).state = .zombie ↔ (s.proc p).state = .zombie := by
    rw [wakeup1]
    split_ifs with asleep
    · simp [asleep.1]
    · rfl
  have parents (p : Slot) : (wakeup1 s.proc ((s.proc i).parent.map .proc) p).parent = (s.proc p).parent := by
    rw [wakeup1]
    split_ifs <;> rfl
  rw [exit,if_neg other,State.note_proc]
  dsimp only
  rw [foldl_adopt _ _ (List.nodup_finRange nproc),update_apply]
  simp only [handed,List.mem_finRange,true_and,and_true,dead,parents]
  by_cases same : j = i
  · subst same
    simp only [if_true,wakeup1]
    split_ifs <;> rfl
  · simp only [if_neg same,Woken,wakeup1]
    by_cases asleep : (s.proc j).state = .sleeping
    · by_cases parent : (s.proc j).chan = (s.proc i).parent.map .proc
      · simp [asleep,parent]
      · simp [asleep,parent]
    · simp [asleep]

theorem wait_cases (s : State) (i : Slot) :
    (∃ p, (s.proc p).parent = some i ∧ (s.proc p).state = .zombie ∧ wait s i = (reap s i p).goto i .user) ∨
    (∀ p, (s.proc p).parent = some i → (s.proc p).state ≠ .zombie) ∧ (wait s i = s.goto i .user ∨
      wait s i = s.set i {s.proc i with chan := some (.proc i), state := .sleeping, pc := .wait}) := by
  rw [wait]
  cases found : (List.finRange nproc).find? (fun p => (s.proc p).parent = some i ∧ (s.proc p).state = .zombie) with
  | some p =>
    obtain ⟨parent,dead⟩ : (s.proc p).parent = some i ∧ (s.proc p).state = .zombie := by simpa using List.find?_some found
    exact .inl ⟨p,parent,dead,rfl⟩
  | none =>
    refine .inr ⟨fun p parent dead => ?_,?_⟩
    · simpa [parent,dead] using List.find?_eq_none.mp found p (List.mem_finRange p)
    · dsimp only
      split_ifs
      · exact .inl rfl
      · exact .inr rfl

/-- `fork` has found slot `np`. -/
def forkSlot (s : State) (i np : Slot) : State :=
  ({(s.set np {s.proc np with state := .embryo, pid := s.nextpid}) with nextpid := s.nextpid + 1}.goto i
    (.stack np)).note (.allocated np (s.proc np).killed)

theorem fork_cases (s : State) (i : Slot) : fork s i = s ∨ ∃ np, (s.proc np).state = .unused ∧ fork s i = forkSlot s i np := by
  rw [fork,allocproc]
  cases found : (List.finRange nproc).find? (fun p => (s.proc p).state = .unused) with
  | none => exact .inl rfl
  | some np =>
    refine .inr ⟨np,by simpa using List.find?_some found,?_⟩
    have kept : ((s.set np {s.proc np with state := .embryo, pid := s.nextpid}).proc np).killed = (s.proc np).killed := by
      rw [State.set_proc,if_pos rfl]
    exact congrArg (fun b => (State.goto _ i (.stack np)).note (.allocated np b)) kept

@[grind =] theorem forkSlot_proc (s : State) (i np j : Slot) : (forkSlot s i np).proc j =
    {s.proc j with
      state := if j = np then .embryo else (s.proc j).state
      pid := if j = np then s.nextpid else (s.proc j).pid
      pc := if j = i then .stack np else (s.proc j).pc} := by
  rw [forkSlot,State.note_proc,State.goto_proc]
  dsimp only
  rw [State.set_proc,State.set_proc]
  by_cases mine : j = i <;> by_cases new : j = np <;> simp_all

theorem freeStack_eq (s : State) (p : Slot) : ∃ pages message, freeStack s p = {s with kstacks := pages, panicked := message} := by
  rw [freeStack]
  split <;> exact ⟨_,_,rfl⟩

theorem reap_eq (s : State) (i p : Slot) : ∃ pages spaces message, reap s i p =
    {(s.set p {s.proc p with kstack := none, pid := 0, parent := none, killed := false, state := .unused}).note
      (.reaped i (s.proc p).pid) with kstacks := pages, spaces := spaces, panicked := message} := by
  obtain ⟨pages,message,freed⟩ := freeStack_eq s p
  rw [reap,freed,freeSpace]
  split <;> exact ⟨_,_,_,rfl⟩

def ProcState.Active : ProcState → Prop
  | .sleeping => True
  | .runnable => True
  | .running => True
  | .unused => False
  | .embryo => False
  | .zombie => False

instance (st : ProcState) : Decidable st.Active := by
  cases st <;> unfold ProcState.Active <;> infer_instance

def Proc.fixed (p : Proc) : UInt32 × Option Slot × Bool × Option Nat × Option Nat := (p.pid,p.parent,p.killed,p.kstack,p.pgdir)

attribute [local grind] ProcState.Active Proc.fixed

structure Quiet (s s' : State) (i : Slot) : Prop where
  next : s'.nextpid = s.nextpid
  init : s'.initproc = s.initproc
  panicked : s'.panicked = s.panicked
  history : s'.history = s.history
  same : ∀ j, (s'.proc j).fixed = (s.proc j).fixed
  state : ∀ j, ((s'.proc j).state = .unused ↔ (s.proc j).state = .unused) ∧ ((s'.proc j).state = .zombie ↔ (s.proc j).state = .zombie) ∧
    (j ≠ i → ((s'.proc j).state = .running ↔ (s.proc j).state = .running))

theorem Quiet.refl (s : State) (i : Slot) : Quiet s s i := ⟨rfl,rfl,rfl,rfl,fun _ => rfl,fun _ => ⟨Iff.rfl,Iff.rfl,fun _ => Iff.rfl⟩⟩

theorem Quiet.set {t : State} (quiet : Quiet s t i) {p : Proc} (active : (t.proc i).state.Active) (active' : p.state.Active)
    (same : p.fixed = (t.proc i).fixed) : Quiet s (t.set i p) i := by
  obtain ⟨next,init,panicked,history,kept,state⟩ := quiet
  exact ⟨next,init,panicked,history,by grind,by grind⟩

/-- What a step does to the table, once the scans of `wait` and `allocproc` have been made. -/
inductive Effect (s : State) (i : Slot) : Move → State → Prop where
  | quiet {m : Move} {s' : State} (quiet : Quiet s s' i) : Effect s i m s'
  | fork {m : Move} (np : Slot) (free : (s.proc np).state = .unused) : Effect s i m (forkSlot s i np)
  | stack (np : Slot) (page : Option Nat) (here : (s.proc i).pc = .stack np) : Effect s i (.kalloc page) (forkStack s i np page)
  | copy (np : Slot) (space : Option Nat) (on : (s.proc i).state = .running) (here : (s.proc i).pc = .copy np) :
      Effect s i (.copyuvm space) (forkCopy s i np space)
  | ready {m : Move} (np : Slot) (here : (s.proc i).pc = .ready np) : Effect s i m (forkReady s i np)
  | panic {m : Move} : Effect s i m (s.panic "init exiting")
  | exit {m : Move} (on : (s.proc i).state = .running) (other : i ≠ s.initproc) : Effect s i m (exit s i)
  | reap {m : Move} {t : State} (p : Slot) (quiet : Quiet s t i) (on : (t.proc i).state = .running) (parent : (t.proc p).parent = some i)
      (dead : (t.proc p).state = .zombie) : Effect s i m ((reap t i p).goto i .user)
  | kill (pid : UInt32) : Effect s i (.kill pid) (kill s pid)
  | fault (on : (s.proc i).state = .running) : Effect s i .fault ((s.set i {s.proc i with killed := true}).note (.faulted i))

theorem wait_effect {t : State} {m : Move} (quiet : Quiet s t i) (on : (t.proc i).state = .running) : Effect s i m (wait t i) := by
  have active : (t.proc i).state.Active := by rw [on]; trivial
  obtain ⟨p,parent,dead,reaped⟩ | ⟨-,returns | sleeps⟩ := wait_cases t i
  · rw [reaped]
    exact .reap p quiet on parent dead
  · rw [returns]
    exact .quiet (quiet.set active active rfl)
  · rw [sleeps]
    exact .quiet (quiet.set active trivial rfl)

theorem Moves.effect {m : Move} (moves : Moves s i m s') : Effect s i m s' := by
  have still := Quiet.refl s i
  have runs (on : (s.proc i).state = .running) : (s.proc i).state.Active := by rw [on]; trivial
  cases moves with
  | wakeup a => exact .quiet ⟨rfl,rfl,rfl,rfl,fun j => by simp only [wakeup1]; grind,fun j => by simp only [wakeup1]; grind⟩
  | switch ready =>
    have active : (s.proc i).state.Active := by rw [ready]; trivial
    rw [Ptable.switch]
    split
    · exact wait_effect (still.set active trivial rfl) (by rw [State.set_proc,if_pos rfl])
    · exact .quiet (still.set active trivial rfl)
    · exact .quiet (still.set active trivial rfl)
  | yield on => exact .quiet (still.set (runs on) trivial rfl)
  | fork on here =>
    obtain same | ⟨np,free,forked⟩ := fork_cases s i
    · rw [same]
      exact .quiet still
    · rw [forked]
      exact .fork np free
  | kalloc np page on here fresh => exact .stack np page here
  | copyuvm np space on here fresh => exact .copy np space on here
  | ready np on here => exact .ready np here
  | exit on here =>
    by_cases first : i = s.initproc
    · rw [Ptable.exit,if_pos first]
      exact .panic
    · exact .exit on first
  | wait on here => exact wait_effect still on
  | kill pid => exact .kill pid
  | sleep a on here => exact .quiet (still.set (runs on) trivial rfl)
  | fault on here => exact .fault on

end

end Xv6Ext2.Ptable
