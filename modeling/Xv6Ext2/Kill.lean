import Xv6Ext2.Ptable

/-! Who is killed: over whole runs a process is marked as killed because `kill` was called with its pid since
it was allocated, or because it faulted. -/
namespace Xv6Ext2.Ptable
open Lib

def since (i : Slot) : List Event → List Event
  | [] => []
  | .allocated j killed :: history => if j = i then [] else .allocated j killed :: since i history
  | e :: history => e :: since i history

/-- The process in slot `i` was named in a call of `kill`, or faulted. -/
def Blamed (s : State) (i : Slot) : Prop :=
  (∃ found, .killed (s.proc i).pid found ∈ since i s.history) ∨ .faulted i ∈ since i s.history

/-- `kill` is not called with a pid that an unused slot has, and a fork that fails has not been killed. -/
def Aimed (s : State) (turn : Slot × Move) : Prop :=
  match (s.proc turn.1).pc, turn.2 with
  | _, .kill pid => ∀ p, (s.proc p).pid = pid → (s.proc p).state ≠ .unused
  | .stack np, .kalloc none => (s.proc np).killed = false
  | .copy np, .copyuvm none => (s.proc np).killed = false
  | _, _ => True

structure Fair (s : State) : Prop where
  unused : ∀ i, (s.proc i).state = .unused → (s.proc i).killed = false
  blamed : ∀ i, (s.proc i).state ≠ .unused → (s.proc i).killed = true → Blamed s i
  started : ∀ i killed, .allocated i killed ∈ s.history → killed = false
  found : ∀ pid state, .killed pid (some state) ∈ s.history → state ≠ .unused

section

variable {s s' : State} {i : Slot}

theorem since_cons {e : Event} (other : ∀ killed, e ≠ .allocated i killed) (history : List Event) :
    since i (e :: history) = e :: since i history := by
  cases e with
  | allocated j killed =>
    rw [since,if_neg]
    rintro rfl
    exact other killed rfl
  | killed pid found => rfl
  | faulted j => rfl
  | exited pid => rfl
  | reaped parent pid => rfl

theorem Blamed.mono (blamed : Blamed s i) (pid : (s'.proc i).pid = (s.proc i).pid)
    (later : ∀ e ∈ since i s.history, e ∈ since i s'.history) : Blamed s' i := by
  rcases blamed with ⟨found,named⟩ | faulted
  · exact .inl ⟨found,by rw [pid]; exact later _ named⟩
  · exact .inr (later _ faulted)

theorem Fair.live (fair : Fair s) (hit : (s.proc i).killed = true) : (s.proc i).state ≠ .unused := fun gone => by
  rw [fair.unused i gone] at hit
  cases hit

theorem Fair.quiet (fair : Fair s) (same : ∀ j, (s'.proc j).killed = (s.proc j).killed ∧ (s'.proc j).pid = (s.proc j).pid ∧
      ((s'.proc j).state = .unused → (s.proc j).state = .unused)) (history : s'.history = s.history) : Fair s' where
  unused j gone := (same j).1.trans (fair.unused j ((same j).2.2 gone))
  blamed j _ hit := by
    rw [(same j).1] at hit
    exact (fair.blamed j (fair.live hit) hit).mono (same j).2.1 (by simp [history])
  started := history ▸ fair.started
  found := history ▸ fair.found

theorem Fair.note (fair : Fair s) {e : Event} (quiet : (∃ pid, e = .exited pid) ∨ ∃ j pid, e = .reaped j pid) : Fair (s.note e) where
  unused := fair.unused
  blamed j here hit := by
    refine (fair.blamed j here hit).mono rfl fun e' member => ?_
    have other : ∀ killed, e ≠ .allocated j killed := by
      rintro killed rfl
      simp at quiet
    rw [State.note,since_cons other]
    exact List.mem_cons_of_mem _ member
  started j killed member := by
    refine fair.started j killed ((List.mem_cons.mp member).resolve_left ?_)
    rintro rfl
    simp at quiet
  found pid state member := by
    refine fair.found pid state ((List.mem_cons.mp member).resolve_left ?_)
    rintro rfl
    simp at quiet

theorem Fair.release (fair : Fair s) {p : Slot} {q : Proc} (clear : q.killed = false) (gone : q.state = .unused) :
    Fair (s.set p q) where
  unused j unused := by
    rw [State.set_proc] at *
    split_ifs at * with same
    · exact clear
    · exact fair.unused j unused
  blamed j here hit := by
    rw [State.set_proc] at here hit
    split_ifs at here hit with same
    · exact absurd gone here
    · exact (fair.blamed j here hit).mono (by rw [State.set_proc,if_neg same]) fun _ member => member
  started := fair.started
  found := fair.found

theorem Fair.forked (fair : Fair s) {np : Slot} (free : (s.proc np).state = .unused) : Fair (forkSlot s i np) := by
  have clear := fair.unused np free
  have history : (forkSlot s i np).history = .allocated np false :: s.history := by rw [forkSlot,clear]; rfl
  refine ⟨fun j gone => ?_,fun j here hit => ?_,fun j killed member => ?_,fun pid state member => ?_⟩
  · rw [forkSlot_proc] at gone ⊢
    exact fair.unused j (by grind)
  · rw [forkSlot_proc] at hit
    by_cases same : j = np
    · rw [same] at hit
      cases clear.symm.trans hit
    · refine (fair.blamed j (fair.live hit) hit).mono (by rw [forkSlot_proc]; exact if_neg same) fun e member => ?_
      rw [history,since,if_neg (Ne.symm same)]
      exact List.mem_cons_of_mem _ member
  · rw [history] at member
    rcases List.mem_cons.mp member with new | old
    · cases new
      rfl
    · exact fair.started j killed old
  · rw [history] at member
    exact fair.found pid state ((List.mem_cons.mp member).resolve_left (by simp))

theorem kill_fair (fair : Fair s) {pid : UInt32} (aimed : ∀ p, (s.proc p).pid = pid → (s.proc p).state ≠ .unused) :
    Fair (kill s pid) := by
  rw [kill]
  cases hit : (List.finRange nproc).find? (fun p => (s.proc p).pid = pid) with
  | none =>
    refine ⟨fair.unused,fun j here killed => ?_,fun j killed member => ?_,fun pid' state member => ?_⟩
    · exact (fair.blamed j here killed).mono rfl fun _ member => List.mem_cons_of_mem _ member
    · exact fair.started j killed ((List.mem_cons.mp member).resolve_left (by simp))
    · exact fair.found pid' state ((List.mem_cons.mp member).resolve_left (by simp))
  | some p =>
    obtain rfl : (s.proc p).pid = pid := by simpa using List.find?_some hit
    have live := aimed p rfl
    dsimp only
    generalize next : (s.set p _) = t
    have table (j : Slot) : (t.proc j).pid = (s.proc j).pid ∧ (j ≠ p → (t.proc j).killed = (s.proc j).killed) ∧
        ((t.proc j).state = .unused → (s.proc j).state = .unused) := by
      rw [← next]
      grind
    have history : t.history = s.history := by rw [← next]; rfl
    refine ⟨fun j gone => ?_,fun j here killed => ?_,fun j killed member => ?_,fun pid' state member => ?_⟩
    · have unused := (table j).2.2 gone
      have other : j ≠ p := by
        rintro rfl
        exact live unused
      exact ((table j).2.1 other).trans (fair.unused j unused)
    · by_cases same : j = p
      · subst same
        have pid : ((t.note (.killed (s.proc j).pid (some (s.proc j).state))).proc j).pid = (s.proc j).pid := (table j).1
        exact .inl ⟨some (s.proc j).state,by rw [pid]; exact List.mem_cons_self ..⟩
      · have before := ((table j).2.1 same).symm.trans killed
        refine (fair.blamed j (fair.live before) before).mono (table j).1 fun e member => ?_
        rw [State.note,history]
        exact List.mem_cons_of_mem _ member
    · rw [State.note,history] at member
      exact fair.started j killed ((List.mem_cons.mp member).resolve_left (by simp))
    · rw [State.note,history] at member
      rcases List.mem_cons.mp member with new | old
      · cases new
        exact live
      · exact fair.found pid' state old

theorem reap_fair (fair : Fair s) (i p : Slot) : Fair (reap s i p) := by
  obtain ⟨pages,spaces,message,reaped⟩ := reap_eq s i p
  rw [reaped]
  exact ((fair.release rfl rfl).note (.inr ⟨i,_,rfl⟩)).quiet (fun _ => ⟨rfl,rfl,id⟩) rfl

theorem Fair.fault (fair : Fair s) (here : (s.proc i).state ≠ .unused) :
    Fair ((s.set i {s.proc i with killed := true}).note (.faulted i)) := by
  refine ⟨fun j gone => ?_,fun j live killed => ?_,fun j killed member => ?_,fun pid' state member => ?_⟩
  · rw [State.note_proc,State.set_proc] at *
    split_ifs at * with same
    · exact absurd gone here
    · exact fair.unused j gone
  · by_cases same : j = i
    · exact .inr (same ▸ List.mem_cons_self ..)
    · rw [State.note_proc,State.set_proc,if_neg same] at live killed
      refine (fair.blamed j live killed).mono ?_ fun _ member => List.mem_cons_of_mem _ member
      rw [State.note_proc,State.set_proc,if_neg same]
  · exact fair.started j killed ((List.mem_cons.mp member).resolve_left (by simp))
  · exact fair.found pid' state ((List.mem_cons.mp member).resolve_left (by simp))

theorem Fair.goto (fair : Fair s) (i : Slot) (pc : Pc) : Fair (s.goto i pc) :=
  fair.quiet (fun j => by grind) rfl

theorem exit_fair (fair : Fair s) (other : i ≠ s.initproc) : Fair (exit s i) := by
  have noted : exit s i = State.note {s with proc := (exit s i).proc} (.exited (s.proc i).pid) := by
    rw [exit,if_neg other]
    rfl
  rw [noted]
  have table : Fair {s with proc := (exit s i).proc} := by
    refine fair.quiet (fun j => ?_) rfl
    dsimp only
    rw [exit_proc other]
    refine ⟨rfl,rfl,fun gone => ?_⟩
    dsimp only at gone
    split_ifs at gone
    exact gone
  exact table.note (.inl ⟨_,rfl⟩)

theorem Fair.still (fair : Fair s) (quiet : Quiet s s' i) : Fair s' := by
  refine fair.quiet (fun j => ?_) quiet.history
  have same := quiet.same j
  simp only [Proc.fixed,Prod.mk.injEq] at same
  exact ⟨same.2.2.1,same.1,(quiet.state j).1.mp⟩

theorem Fair.step {turn : Slot × Move} (fair : Fair s) (aimed : Aimed s turn) (stepped : step s turn = some s') : Fair s' := by
  obtain ⟨i,m⟩ := turn
  cases (step_moves stepped).2.effect with
  | quiet quiet => exact fair.still quiet
  | panic => exact fair.quiet (fun _ => ⟨rfl,rfl,id⟩) rfl
  | fork np free => exact fair.forked free
  | stack np page here =>
    cases page with
    | none => exact (fair.release (by simpa only [Aimed,here] using aimed) rfl).goto i .user
    | some page => exact fair.quiet (fun j => by rw [forkStack]; dsimp only; grind) rfl
  | copy np space on here =>
    cases space with
    | none =>
      obtain ⟨pages,message,freed⟩ := freeStack_eq s np
      rw [forkCopy,freed]
      have fair' : Fair {s with kstacks := pages, panicked := message} := fair.quiet (fun _ => ⟨rfl,rfl,id⟩) rfl
      exact (fair'.release (by simpa only [Aimed,here] using aimed) rfl).goto i .user
    | some space => exact fair.quiet (fun j => by rw [forkCopy]; dsimp only; grind) rfl
  | ready np here => exact fair.quiet (fun j => by rw [forkReady]; grind) rfl
  | exit on other => exact exit_fair fair other
  | reap p quiet on parent dead => exact (reap_fair (fair.still quiet) i p).goto i .user
  | kill pid => exact kill_fair fair (by simpa only [Aimed] using aimed)
  | fault on => exact fair.fault (by rw [on]; decide)

end

theorem boot_fair : Fair boot := by
  refine ⟨fun i _ => ?_,fun i _ killed => ?_,fun i killed member => ?_,fun pid state member => ?_⟩
  · simp only [boot]
    split_ifs <;> rfl
  · simp only [boot] at killed
    split_ifs at killed
  · simp only [boot,List.mem_singleton] at member
    cases member
    rfl
  · simp [boot] at member

/-- In every run whose calls of `kill` are aimed at processes, a process is killed only on account of a call
with its pid since it was allocated or of its own fault, it starts with `killed` clear, and `kill` returns 0
only if it finds a process. -/
theorem killed_by_name {turns : List (Slot × Move)} {s : State} (aimed : Throughout step Aimed turns boot)
    (ran : schedule step turns boot = some s) :
    (∀ i, (s.proc i).state ≠ .unused → (s.proc i).killed = true → Blamed s i) ∧
    (∀ i killed, .allocated i killed ∈ s.history → killed = false) ∧
    ∀ pid state, .killed pid (some state) ∈ s.history → state ≠ .unused := by
  have fair := schedule_keeps (fun s _ s' fair aimed stepped => Fair.step (s := s) fair aimed stepped) aimed boot_fair ran
  exact ⟨fair.blamed,fair.started,fair.found⟩

instance (s : State) (turn : Slot × Move) : Decidable (Aimed s turn) := by
  unfold Aimed
  split <;> infer_instance

/-- The first process forks, kills its child, which exits, and waits for it. -/
private def killedChild : List (Slot × Move) :=
  [(0,.switch),(0,.fork),(0,.kalloc (some 1)),(0,.copyuvm (some 1)),(0,.ready),(0,.kill 2),(1,.switch),(1,.exit),(0,.wait),(0,.fork)]

theorem killed_by_name_child :
    ∃ s, schedule step killedChild boot = some s ∧ (s.proc 1).state = .embryo ∧
      (∀ i, (s.proc i).state ≠ .unused → (s.proc i).killed = true → Blamed s i) := by
  have returns : ((schedule step killedChild boot).map fun s => (s.proc 1).state) = some .embryo := by decide +kernel
  obtain ⟨s,ran,embryo⟩ := Option.map_eq_some_iff.mp returns
  exact ⟨s,ran,embryo,(killed_by_name (by decide +kernel) ran).1⟩

/-- `kill(0)` finds a slot that no process has, and returns 0. The next process is allocated there, killed. -/
theorem kill_zero_hits_unused :
    ∃ s, schedule step [(0,.switch),(0,.kill 0),(0,.fork)] boot = some s ∧ (s.proc 1).state = .embryo ∧
      (s.proc 1).killed = true ∧ ¬Blamed s 1 ∧ .allocated 1 true ∈ s.history ∧ .killed 0 (some .unused) ∈ s.history := by
  have returns : ((schedule step [(0,.switch),(0,.kill 0),(0,.fork)] boot).map fun s => (s.proc 1,s.history)) =
      some (⟨.embryo,2,none,none,true,none,none,.user⟩,[.allocated 1 true,.killed 0 (some .unused),.allocated 0 false]) := by
    decide +kernel
  obtain ⟨s,ran,seen⟩ := Option.map_eq_some_iff.mp returns
  obtain ⟨slot,history⟩ := Prod.ext_iff.mp seen
  dsimp only at slot history
  refine ⟨s,ran,by rw [slot],by rw [slot],?_,by rw [history]; decide,by rw [history]; decide⟩
  rw [Blamed,history]
  simp [since]

end Xv6Ext2.Ptable
