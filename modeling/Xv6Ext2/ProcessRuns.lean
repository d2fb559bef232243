import Xv6Ext2.ProcessTree

/-! What becomes of processes over whole runs: no two have the same pid, and every exit is reported to the
parent once. -/
namespace Xv6Ext2.Ptable
open Lib

def allocations (history : List Event) : Nat := history.countP fun e => match e with | .allocated _ _ => true | _ => false

def exits (pid : UInt32) (history : List Event) : Nat := history.count (.exited pid)

/-- Number of calls of `wait` that have returned this pid. -/
def reports (pid : UInt32) (history : List Event) : Nat :=
  history.countP fun e => match e with | .reaped _ pid' => pid' == pid | _ => false

structure Ledger (s : State) : Prop where
  low : ∀ i, (s.proc i).state ≠ .unused → (s.proc i).pid.toNat < s.nextpid.toNat
  distinct : ∀ i j, (s.proc i).state ≠ .unused → (s.proc j).state ≠ .unused → (s.proc i).pid = (s.proc j).pid → i = j
  fresh : ∀ pid, s.nextpid.toNat ≤ pid.toNat → exits pid s.history = 0 ∧ reports pid s.history = 0
  live : ∀ i, (s.proc i).state ≠ .unused → (s.proc i).state ≠ .zombie →
    exits (s.proc i).pid s.history = 0 ∧ reports (s.proc i).pid s.history = 0
  dead : ∀ i, (s.proc i).state = .zombie → exits (s.proc i).pid s.history = 1 ∧ reports (s.proc i).pid s.history = 0
  gone : ∀ pid, (∀ i, (s.proc i).state ≠ .unused → (s.proc i).pid ≠ pid) →
    exits pid s.history = reports pid s.history ∧ exits pid s.history ≤ 1

section

variable {s s' : State} {i np : Slot}

theorem Ledger.quiet (ledger : Ledger s) (next : s'.nextpid = s.nextpid)
    (same : ∀ j, (s'.proc j).pid = (s.proc j).pid ∧ ((s'.proc j).state = .unused ↔ (s.proc j).state = .unused) ∧
      ((s'.proc j).state = .zombie ↔ (s.proc j).state = .zombie))
    (history : ∀ pid, exits pid s'.history = exits pid s.history ∧ reports pid s'.history = reports pid s.history) : Ledger s' := by
  have pids (j : Slot) := (same j).1
  have unused (j : Slot) := (same j).2.1
  have zombie (j : Slot) := (same j).2.2
  have exited (pid : UInt32) := (history pid).1
  have reported (pid : UInt32) := (history pid).2
  refine ⟨?_,?_,?_,?_,?_,?_⟩ <;> simp only [Ne,pids,unused,zombie,exited,reported,next]
  · exact ledger.low
  · exact ledger.distinct
  · exact ledger.fresh
  · exact ledger.live
  · exact ledger.dead
  · exact ledger.gone

theorem exits_cons (pid : UInt32) (e : Event) (history : List Event) :
    exits pid (e :: history) = exits pid history + if e = .exited pid then 1 else 0 := by
  rw [exits,exits,List.count_cons]
  simp only [beq_iff_eq]

theorem reports_cons (pid : UInt32) (e : Event) (history : List Event) :
    reports pid (e :: history) = reports pid history + if (∃ parent, e = .reaped parent pid) then 1 else 0 := by
  rw [reports,reports,List.countP_cons]
  cases e <;> simp

theorem Ledger.forked (ledger : Ledger s) (few : s.nextpid.toNat + 1 < 2^32) (free : (s.proc np).state = .unused) :
    Ledger (forkSlot s i np) := by
  have next : (forkSlot s i np).nextpid.toNat = s.nextpid.toNat + 1 := by
    change (s.nextpid + 1).toNat = _
    rw [UInt32.toNat_add]
    exact Nat.mod_eq_of_lt few
  have table (j : Slot) : ((forkSlot s i np).proc j).pid = (if j = np then s.nextpid else (s.proc j).pid) ∧
      ((forkSlot s i np).proc j).state = if j = np then .embryo else (s.proc j).state := by
    rw [forkSlot_proc]
    exact ⟨rfl,rfl⟩
  have counts (pid : UInt32) : exits pid (forkSlot s i np).history = exits pid s.history ∧
      reports pid (forkSlot s i np).history = reports pid s.history := by
    rw [forkSlot,State.note,exits_cons,reports_cons]
    simp [State.set,State.goto]
  generalize forkSlot s i np = t at next table counts
  have older (j : Slot) (live : (s.proc j).state ≠ .unused) : (s.proc j).pid ≠ s.nextpid := fun same => by
    have low := ledger.low j live
    rw [same] at low
    exact Nat.lt_irrefl _ low
  exact {
    low := by have := ledger.low; grind
    distinct := by have := ledger.distinct; grind
    fresh := by have := ledger.fresh; grind
    live := by have := ledger.live; have := ledger.fresh; grind
    dead := by have := ledger.dead; grind
    gone := by have := ledger.gone; grind }

theorem Ledger.aborted (ledger : Ledger s) (embryo : (s.proc np).state = .embryo) {p : Proc} (gone : p.state = .unused) :
    Ledger (s.set np p) := by
  have table (j : Slot) : ((s.set np p).proc j) = if j = np then p else s.proc j := State.set_proc s np j p
  have next : (s.set np p).nextpid = s.nextpid := rfl
  have history : (s.set np p).history = s.history := rfl
  generalize s.set np p = t at table next history
  exact {
    low := by have := ledger.low; grind
    distinct := by have := ledger.distinct; grind
    fresh := by have := ledger.fresh; grind
    live := by have := ledger.live; grind
    dead := by have := ledger.dead; grind
    gone := by have := ledger.gone; have := ledger.live; grind }

theorem exit_ledger (ledger : Ledger s) (on : (s.proc i).state = .running) (first : i ≠ s.initproc) : Ledger (exit s i) := by
  have table (j : Slot) : ((exit s i).proc j).pid = (s.proc j).pid ∧ (((exit s i).proc j).state = .unused ↔ (s.proc j).state = .unused) ∧
      (((exit s i).proc j).state = .zombie ↔ (s.proc j).state = .zombie ∨ j = i) := by
    rw [exit_proc first]
    refine ⟨rfl,?_,?_⟩ <;> dsimp only <;> split_ifs with same woken
    · simp [same,on]
    · simp [woken.1]
    · rfl
    · simp [same]
    · simp [woken.1,same]
    · simp [same]
  have next : (exit s i).nextpid = s.nextpid := by
    rw [exit,if_neg first]
    rfl
  have history : (exit s i).history = .exited (s.proc i).pid :: s.history := by
    rw [exit,if_neg first]
    rfl
  have exited (pid : UInt32) : exits pid (exit s i).history = exits pid s.history + if (s.proc i).pid = pid then 1 else 0 := by
    rw [history,exits_cons]
    simp
  have reported (pid : UInt32) : reports pid (exit s i).history = reports pid s.history := by
    rw [history,reports_cons]
    simp
  generalize exit s i = t at table next exited reported
  have live := ledger.live i (by rw [on]; decide) (by rw [on]; decide)
  have low := ledger.low i (by rw [on]; decide)
  exact {
    low := by have := ledger.low; grind
    distinct := by have := ledger.distinct; grind
    fresh := by have := ledger.fresh; grind
    live := by have := ledger.live; have := ledger.distinct; grind
    dead := by have := ledger.dead; have := ledger.distinct; grind
    gone := by have := ledger.gone; grind }

theorem reap_ledger (ledger : Ledger s) {p : Slot} (dead : (s.proc p).state = .zombie) : Ledger (reap s i p) := by
  obtain ⟨pages,spaces,message,reaped⟩ := reap_eq s i p
  have table (j : Slot) (other : j ≠ p) : (reap s i p).proc j = s.proc j := by
    rw [reaped,State.note_proc,State.set_proc,if_neg other]
  have gone : ((reap s i p).proc p).state = .unused := by rw [reaped,State.note_proc,State.set_proc,if_pos rfl]
  have next : (reap s i p).nextpid = s.nextpid := by rw [reaped]; rfl
  have history : (reap s i p).history = .reaped i (s.proc p).pid :: s.history := by rw [reaped]; rfl
  have exited (pid : UInt32) : exits pid (reap s i p).history = exits pid s.history := by
    rw [history,exits_cons]
    simp
  have reported (pid : UInt32) : reports pid (reap s i p).history = reports pid s.history + if (s.proc p).pid = pid then 1 else 0 := by
    rw [history,reports_cons]
    simp
  generalize reap s i p = t at table gone next exited reported
  have before := ledger.dead p dead
  have low := ledger.low p (by rw [dead]; decide)
  exact {
    low := by have := ledger.low; grind
    distinct := by have := ledger.distinct; grind
    fresh := by have := ledger.fresh; grind
    live := by have := ledger.live; have := ledger.distinct; grind
    dead := by have := ledger.dead; have := ledger.distinct; grind
    gone := by have := ledger.gone; grind }

theorem Ledger.back (ledger : Ledger s) (i : Slot) (pc : Pc) : Ledger (s.goto i pc) :=
  ledger.quiet rfl (fun j => by grind) fun _ => ⟨rfl,rfl⟩

theorem Ledger.still (ledger : Ledger s) (quiet : Quiet s s' i) : Ledger s' :=
  ledger.quiet quiet.next (fun j => ⟨congrArg Prod.fst (quiet.same j),(quiet.state j).1,(quiet.state j).2.1⟩)
    fun _ => by rw [quiet.history]; exact ⟨rfl,rfl⟩

theorem Ledger.step {turn : Slot × Move} (ledger : Ledger s) (tree : Tree s) (few : s.nextpid.toNat + 1 < 2^32)
    (stepped : step s turn = some s') : Ledger s' := by
  obtain ⟨i,m⟩ := turn
  cases (step_moves stepped).2.effect with
  | quiet quiet => exact ledger.still quiet
  | panic => exact ledger.quiet rfl (fun _ => ⟨rfl,Iff.rfl,Iff.rfl⟩) fun _ => ⟨rfl,rfl⟩
  | fork np free => exact ledger.forked few free
  | stack np page here =>
    have embryo := (tree.forking i np (by rw [here]; rfl)).1
    cases page with
    | none => exact (ledger.aborted embryo rfl).back i .user
    | some page => exact ledger.quiet rfl (fun j => by rw [forkStack]; dsimp only; grind) fun _ => ⟨rfl,rfl⟩
  | copy np space on here =>
    have embryo := (tree.forking i np (by rw [here]; rfl)).1
    cases space with
    | none =>
      obtain ⟨pages,message,freed⟩ := freeStack_eq s np
      rw [forkCopy,freed]
      have ledger' : Ledger {s with kstacks := pages, panicked := message} :=
        ledger.quiet rfl (fun _ => ⟨rfl,Iff.rfl,Iff.rfl⟩) fun _ => ⟨rfl,rfl⟩
      exact (ledger'.aborted embryo rfl).back i .user
    | some space => exact ledger.quiet rfl (fun j => by rw [forkCopy]; dsimp only; grind) fun _ => ⟨rfl,rfl⟩
  | ready np here =>
    have embryo := (tree.forking i np (by rw [here]; rfl)).1
    exact ledger.quiet rfl (fun j => by rw [forkReady]; grind) fun _ => ⟨rfl,rfl⟩
  | exit on other => exact exit_ledger ledger on other
  | reap p quiet on parent dead => exact (reap_ledger (ledger.still quiet) dead).back i .user
  | kill pid =>
    rw [kill]
    split
    · refine ledger.quiet rfl (fun j => ?_) fun pid' => ?_
      · rw [State.note_proc]
        grind
      · rw [State.note,exits_cons,reports_cons]
        simp [State.set]
    · refine ledger.quiet rfl (fun _ => ⟨rfl,Iff.rfl,Iff.rfl⟩) fun pid' => ?_
      rw [State.note,exits_cons,reports_cons]
      simp
  | fault on =>
    refine ledger.quiet rfl (fun j => by rw [State.note_proc]; grind) fun pid' => ?_
    rw [State.note,exits_cons,reports_cons]
    simp [State.set]

/-- What each step does to `nextpid`. -/
def Counted (s s' : State) : Prop :=
  s'.nextpid = s.nextpid ∧ allocations s'.history = allocations s.history ∨
    s'.nextpid = s.nextpid + 1 ∧ allocations s'.history = allocations s.history + 1

theorem step_counted {turn : Slot × Move} (stepped : step s turn = some s') : Counted s s' := by
  obtain ⟨i,m⟩ := turn
  cases (step_moves stepped).2.effect with
  | quiet quiet => exact .inl ⟨quiet.next,congrArg allocations quiet.history⟩
  | panic => exact .inl ⟨rfl,rfl⟩
  | fork np free => exact .inr ⟨rfl,List.countP_cons_of_pos rfl⟩
  | stack np page here => cases page <;> exact .inl ⟨rfl,rfl⟩
  | copy np space on here =>
    cases space with
    | none =>
      obtain ⟨pages,message,freed⟩ := freeStack_eq s np
      rw [forkCopy,freed]
      exact .inl ⟨rfl,rfl⟩
    | some space => exact .inl ⟨rfl,rfl⟩
  | ready np here => exact .inl ⟨rfl,rfl⟩
  | exit on other =>
    rw [exit,if_neg other]
    exact .inl ⟨rfl,List.countP_cons_of_neg (by simp)⟩
  | reap p quiet on parent dead =>
    obtain ⟨pages,spaces,message,reaped⟩ := reap_eq _ i p
    rw [reaped]
    exact .inl ⟨quiet.next,(List.countP_cons_of_neg (by simp)).trans (congrArg allocations quiet.history)⟩
  | kill pid =>
    rw [kill]
    split <;> exact .inl ⟨rfl,List.countP_cons_of_neg (by simp)⟩
  | fault on => exact .inl ⟨rfl,List.countP_cons_of_neg (by simp)⟩

/-- The invariant of every run; `nextpid` counts the allocations, and until it wraps pids are kept in the ledger. -/
structure Sane (s : State) : Prop where
  tree : Tree s
  serial : s.nextpid = UInt32.ofNat (allocations s.history + 1)
  ledger : allocations s.history < 2^31 - 1 → Ledger s

theorem Sane.step {turn : Slot × Move} (sane : Sane s) (stepped : step s turn = some s') : Sane s' := by
  have counted := step_counted stepped
  refine ⟨sane.tree.step stepped,?_,fun few => ?_⟩
  · rcases counted with ⟨next,same⟩ | ⟨next,more⟩
    · rw [next,same]
      exact sane.serial
    · rw [next,more,sane.serial,UInt32.ofNat_add (allocations s.history + 1) 1]
      rfl
  · have before : allocations s.history < 2^31 - 1 := by
      rcases counted with ⟨-,same⟩ | ⟨-,more⟩ <;> omega
    refine (sane.ledger before).step sane.tree ?_ stepped
    rw [sane.serial,UInt32.toNat_ofNat']
    omega

end

theorem boot_ledger : Ledger boot := by
  have states (i : Slot) (live : (boot.proc i).state ≠ .unused) : i = 0 := by
    by_contra other
    exact live (by simp only [boot]; rw [if_neg other])
  have none (pid : UInt32) : exits pid boot.history = 0 ∧ reports pid boot.history = 0 := by
    constructor
    · exact List.count_eq_zero_of_not_mem (by simp [boot])
    · rfl
  refine ⟨fun i live => ?_,fun i j live live' _ => ?_,fun pid _ => none pid,fun i _ _ => none _,fun i dead => ?_,fun pid _ => ?_⟩
  · rw [states i live]
    decide
  · rw [states i live,states j live']
  · have same := states i (by rw [dead]; decide)
    rw [same] at dead
    cases dead
  · rw [(none pid).1,(none pid).2]
    exact ⟨rfl,Nat.zero_le 1⟩

theorem sane_run {turns : List (Slot × Move)} {s : State} (ran : schedule step turns boot = some s) : Sane s :=
  schedule_invariant (fun _ _ _ sane stepped => sane.step stepped) ⟨boot_tree,rfl,fun _ => boot_ledger⟩ ran

/-- `wait` of process `i` has reported slot `p`: its slot, stack and memory are free. -/
structure Buried (s s' : State) (i p : Slot) (pid : UInt32) : Prop where
  parent : (s.proc p).parent = some i
  dead : (s.proc p).state = .zombie
  named : (s.proc p).pid = pid
  gone : (s'.proc p).state = .unused
  stack : ∃ page, (s.proc p).kstack = some page ∧ (s'.proc p).kstack = none ∧ page ∉ s'.kstacks
  space : ∃ space, (s.proc p).pgdir = some space ∧ space ∉ s'.spaces

section

variable {s s' : State} {i q : Slot} {pid : UInt32}

theorem Tree.reap_eq {t : State} {p : Slot} (tree : Tree s) (quiet : Quiet s t i) (dead : (t.proc p).state = .zombie) :
    ∃ page space, (s.proc p).kstack = some page ∧ (s.proc p).pgdir = some space ∧ reap t i p =
      {(t.set p {t.proc p with kstack := none, pid := 0, parent := none, killed := false, state := .unused}).note
        (.reaped i (t.proc p).pid) with kstacks := t.kstacks.erase page, spaces := t.spaces.erase space} := by
  have same := quiet.same p
  simp only [Proc.fixed,Prod.mk.injEq] at same
  obtain ⟨-,-,-,kstack,pgdir⟩ := same
  have stocked := tree.stocked p (.inr ((quiet.state p).2.1.mp dead))
  obtain ⟨page,stack⟩ := Option.ne_none_iff_exists'.mp stocked.1
  obtain ⟨space,memory⟩ := Option.ne_none_iff_exists'.mp stocked.2
  refine ⟨page,space,stack,memory,?_⟩
  have freed : freeStack t p = {t with kstacks := t.kstacks.erase page} := by rw [freeStack,kstack,stack]
  rw [reap,freed,freeSpace]
  dsimp only
  rw [pgdir,memory]
  rfl

theorem step_buries {turn : Slot × Move} (tree : Tree s) (stepped : step s turn = some s')
    (reported : s'.history = .reaped q pid :: s.history) : ∃ p, Buried s s' q p pid := by
  obtain ⟨i,m⟩ := turn
  have still {α : Prop} (same : s'.history = s.history) : α := by
    rw [same] at reported
    exact absurd reported.symm (List.cons_ne_self _ _)
  cases (step_moves stepped).2.effect with
  | quiet quiet => exact still quiet.history
  | panic => exact still rfl
  | fork np free => cases (List.cons.inj reported).1
  | stack np page here => cases page <;> exact still rfl
  | copy np space on here =>
    cases space with
    | none =>
      obtain ⟨pages,message,freed⟩ := freeStack_eq s np
      exact still (by rw [forkCopy,freed]; rfl)
    | some space => exact still rfl
  | ready np here => exact still rfl
  | exit on other =>
    rw [exit,if_neg other] at reported
    cases (List.cons.inj reported).1
  | @reap _ t p quiet on parent dead =>
    obtain ⟨page,space,stack,pgdir,reaped⟩ := tree.reap_eq quiet dead
    have same := quiet.same p
    simp only [Proc.fixed,Prod.mk.injEq] at same
    have other : p ≠ i := fun same => by rw [same,on] at dead; cases dead
    rw [reaped] at reported ⊢
    obtain ⟨rfl,rfl⟩ : i = q ∧ (t.proc p).pid = pid := by
      have head := (List.cons.inj reported).1
      cases head
      exact ⟨rfl,rfl⟩
    refine ⟨p,same.2.1.symm.trans parent,(quiet.state p).2.1.mp dead,same.1.symm,?_,⟨page,stack,?_,Finset.notMem_erase _ _⟩,
      ⟨space,pgdir,Finset.notMem_erase _ _⟩⟩
    · rw [State.goto_proc,if_neg other,State.note_proc,State.set_proc,if_pos rfl]
    · rw [State.goto_proc,if_neg other,State.note_proc,State.set_proc,if_pos rfl]
  | kill pid' =>
    rw [kill] at reported
    split at reported <;> cases (List.cons.inj reported).1
  | fault on => cases (List.cons.inj reported).1

theorem wait_returns {p : Slot} (calm : s.panicked = none) (on : (s.proc i).state = .running) (here : (s.proc i).pc = .user)
    (child : (s.proc p).parent = some i) (dead : (s.proc p).state = .zombie) :
    ∃ s' pid, step s (i,.wait) = some s' ∧ s'.history = .reaped i pid :: s.history := by
  refine ⟨wait s i,?_⟩
  obtain ⟨p,-,-,reaped⟩ | ⟨none,-⟩ := wait_cases s i
  · refine ⟨(s.proc p).pid,?_,?_⟩
    · simp [step,calm,on,here]
    · obtain ⟨pages,spaces,message,found⟩ := reap_eq s i p
      rw [reaped,found]
      rfl
  · exact absurd dead (none p child)

end

/-- In every state that a run with fewer than 2^31 - 1 allocations reaches: pids of processes differ; the
parent of a process is neither unused nor a zombie; a process asleep in `wait` has no zombie; a pid that has
exited belongs to a zombie and has not been reported, or has been reported once. A report is made to the
parent, which has the slot, stack and memory free, and `wait` makes one whenever it finds a zombie. -/
theorem process_tree {turns : List (Slot × Move)} {s : State} (few : allocations s.history < 2^31 - 1)
    (ran : schedule step turns boot = some s) :
    (∀ i j, (s.proc i).state ≠ .unused → (s.proc j).state ≠ .unused → (s.proc i).pid = (s.proc j).pid → i = j) ∧
    (∀ i, (s.proc i).state.Active ∨ (s.proc i).state = .zombie → i ≠ s.initproc →
      ∃ q, (s.proc i).parent = some q ∧ (s.proc q).state ≠ .unused ∧ (s.proc q).state ≠ .zombie) ∧
    (∀ i p, (s.proc i).state = .sleeping → (s.proc i).pc = .wait → (s.proc p).parent = some i → (s.proc p).state ≠ .zombie) ∧
    (∀ pid, .exited pid ∈ s.history →
      (∃ i, (s.proc i).state = .zombie ∧ (s.proc i).pid = pid) ∧ reports pid s.history = 0 ∨
        (∀ i, (s.proc i).state ≠ .unused → (s.proc i).pid ≠ pid) ∧ reports pid s.history = 1) ∧
    (∀ turn s' q pid, step s turn = some s' → s'.history = .reaped q pid :: s.history → ∃ p, Buried s s' q p pid) ∧
    ∀ i p, s.panicked = none → (s.proc i).state = .running → (s.proc i).pc = .user → (s.proc p).parent = some i →
      (s.proc p).state = .zombie → ∃ s' pid, step s (i,.wait) = some s' ∧ s'.history = .reaped i pid :: s.history := by
  have sane := sane_run ran
  have ledger := sane.ledger few
  refine ⟨ledger.distinct,fun i live other => ?_,sane.tree.patient,fun pid exited => ?_,
    fun _ _ _ _ stepped reported => step_buries sane.tree stepped reported,
    fun _ _ calm on here child dead => wait_returns calm on here child dead⟩
  · obtain ⟨q,parent⟩ := Option.ne_none_iff_exists'.mp (sane.tree.family i live other)
    have active := sane.tree.lineage i q parent
    refine ⟨q,parent,?_,?_⟩ <;> intro state <;> rw [state] at active <;> exact active
  · have positive : exits pid s.history ≠ 0 := (List.count_pos_iff.mpr exited).ne'
    by_cases held : ∃ i, (s.proc i).state ≠ .unused ∧ (s.proc i).pid = pid
    · obtain ⟨i,live,rfl⟩ := held
      have dead : (s.proc i).state = .zombie := by
        by_contra alive
        exact positive (ledger.live i live alive).1
      exact .inl ⟨⟨i,dead,rfl⟩,(ledger.dead i dead).2⟩
    · have free : ∀ i, (s.proc i).state ≠ .unused → (s.proc i).pid ≠ pid := fun i live same => held ⟨i,live,same⟩
      have counts := ledger.gone pid free
      exact .inr ⟨free,by omega⟩

/-- A process forks, forks again from its child, and the child exits; the grandchild goes to the first process. -/
private def orphan : List (Slot × Move) :=
  [(0,.switch),(0,.fork),(0,.kalloc (some 1)),(0,.copyuvm (some 1)),(0,.ready),(1,.switch),(1,.fork),(1,.kalloc (some 2)),
    (1,.copyuvm (some 2)),(1,.ready),(0,.wait),(2,.switch),(2,.exit),(1,.exit),(0,.switch)]

theorem process_tree_orphan :
    ∃ s, schedule step orphan boot = some s ∧ reports 2 s.history = 1 ∧
      ∃ q, (s.proc 2).parent = some q ∧ (s.proc q).state ≠ .unused ∧ (s.proc q).state ≠ .zombie := by
  have returns : ((schedule step orphan boot).map fun s => (allocations s.history,reports 2 s.history,(s.proc 2).state,s.initproc)) =
      some (3,1,.zombie,0) := by decide +kernel
  obtain ⟨s,ran,seen⟩ := Option.map_eq_some_iff.mp returns
  simp only [Prod.mk.injEq] at seen
  obtain ⟨count,reported,dead,init⟩ := seen
  have facts := process_tree (by rw [count]; decide) ran
  exact ⟨s,ran,reported,facts.2.1 2 (.inr dead) (by rw [init]; decide)⟩

end Xv6Ext2.Ptable
