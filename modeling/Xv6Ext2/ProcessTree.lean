import Xv6Ext2.Ptable

/-! The process tree: parents outlive their children or hand them over, and a process asleep in `wait` has no
zombie. -/
namespace Xv6Ext2.Ptable
open Lib

/-- The process that a fork is setting up. -/
def Pc.child : Pc → Option Slot
  | .stack np => some np
  | .copy np => some np
  | .ready np => some np
  | .user => none
  | .wait => none
  | .asleep => none

def Coherent (i : Slot) (p : Proc) : Prop :=
  match p.state with
  | .unused => p.parent = none ∧ p.kstack = none ∧ p.pc.child = none
  | .embryo => p.pc.child = none
  | .sleeping => p.pc = .wait ∧ p.chan = some (.proc i) ∨ p.pc = .asleep ∧ ∃ a, p.chan = some (.other a)
  | .runnable => True
  | .running => True
  | .zombie => p.pc.child = none

def Growing (i : Slot) (np : Proc) : Pc → Prop
  | .stack _ => np.parent = none ∧ np.kstack = none
  | .copy _ => np.parent = none ∧ np.kstack ≠ none
  | .ready _ => np.parent = some i ∧ np.kstack ≠ none ∧ np.pgdir ≠ none
  | _ => True

/-- A fork that sets up slot `np` and goes on to `pc`, gives the slot back, or comes to its end. -/
def Next (i np : Slot) (p : Proc) (pc : Pc) : Prop :=
  pc.child = some np ∧ p.state = .embryo ∧ Growing i p pc ∧ (p.parent = none ∨ p.parent = some i ∧ pc = .ready np) ∨
    pc = .user ∧ (p.state = .unused ∧ p.parent = none ∧ p.kstack = none ∨
      p.state = .runnable ∧ p.parent = some i ∧ p.kstack ≠ none ∧ p.pgdir ≠ none)

structure Tree (s : State) : Prop where
  init : (s.proc s.initproc).state.Active ∧ (s.proc s.initproc).parent = none
  coherent : ∀ i, Coherent i (s.proc i)
  forking : ∀ i np, (s.proc i).pc.child = some np → (s.proc np).state = .embryo ∧ Growing i (s.proc np) (s.proc i).pc
  one : ∀ i j np, (s.proc i).pc.child = some np → (s.proc j).pc.child = some np → i = j
  born : ∀ p q, (s.proc p).state = .embryo → (s.proc p).parent = some q → (s.proc q).pc = .ready p
  foreign : ∀ i, (s.proc i).parent ≠ some i
  family : ∀ i, (s.proc i).state.Active ∨ (s.proc i).state = .zombie → i ≠ s.initproc → (s.proc i).parent ≠ none
  lineage : ∀ i q, (s.proc i).parent = some q → (s.proc q).state.Active
  patient : ∀ i p, (s.proc i).state = .sleeping → (s.proc i).pc = .wait → (s.proc p).parent = some i → (s.proc p).state ≠ .zombie
  stocked : ∀ i, (s.proc i).state.Active ∨ (s.proc i).state = .zombie → (s.proc i).kstack ≠ none ∧ (s.proc i).pgdir ≠ none

section

variable {s s' : State} {i j np : Slot}

theorem Growing.congr {p q : Proc} {pc : Pc} (growing : Growing i p pc) (parent : q.parent = p.parent) (kstack : q.kstack = p.kstack)
    (pgdir : q.pgdir = p.pgdir) : Growing i q pc := by
  cases pc with
  | stack _ => rw [Growing,parent,kstack]; exact growing
  | copy _ => rw [Growing,parent,kstack]; exact growing
  | ready _ => rw [Growing,parent,kstack,pgdir]; exact growing
  | user => trivial
  | wait => trivial
  | asleep => trivial

theorem Tree.moved (tree : Tree s) (init : s'.initproc = s.initproc)
    (kept : ∀ j, (s'.proc j).parent = (s.proc j).parent ∧ (s'.proc j).kstack = (s.proc j).kstack ∧
      (s'.proc j).pgdir = (s.proc j).pgdir)
    (states : ∀ j, (s'.proc j).state = (s.proc j).state ∧ (s'.proc j).pc = (s.proc j).pc ∧ (s'.proc j).chan = (s.proc j).chan ∨
      (s.proc j).state.Active ∧ (s'.proc j).state.Active ∧ Coherent j (s'.proc j) ∧
        ((s'.proc j).pc = (s.proc j).pc ∨ (s.proc j).pc.child = none ∧ (s'.proc j).pc.child = none))
    (patient : ∀ j p, (s'.proc j).state = .sleeping → (s'.proc j).pc = .wait → (s.proc p).parent = some j → (s.proc p).state ≠ .zombie) :
    Tree s' := by
  have active (j : Slot) : (s'.proc j).state.Active ↔ (s.proc j).state.Active := by
    rcases states j with ⟨same,-,-⟩ | ⟨before,after,-⟩
    · rw [same]
    · exact iff_of_true after before
  have others (st : ProcState) (off : ¬st.Active) (j : Slot) : (s'.proc j).state = st ↔ (s.proc j).state = st := by
    rcases states j with ⟨same,-,-⟩ | ⟨before,after,-⟩
    · rw [same]
    · exact iff_of_false (fun eq => off (eq ▸ after)) (fun eq => off (eq ▸ before))
  have pcs (j : Slot) : (s'.proc j).pc = (s.proc j).pc ∨ (s.proc j).pc.child = none ∧ (s'.proc j).pc.child = none := by
    rcases states j with ⟨-,same,-⟩ | ⟨-,-,-,moved⟩
    · exact .inl same
    · exact moved
  have children (j : Slot) : (s'.proc j).pc.child = (s.proc j).pc.child := by
    rcases pcs j with same | ⟨before,after⟩
    · rw [same]
    · rw [before,after]
  refine ⟨?_,fun j => ?_,fun j np child => ?_,fun j k np => ?_,fun p q => ?_,fun j => ?_,fun j live other => ?_,fun j q => ?_,
    fun j p asleep here => ?_,fun j live => ?_⟩
  · rw [init,active,(kept _).1]
    exact tree.init
  · rcases states j with ⟨state,pc,chan⟩ | ⟨-,-,after,-⟩
    · have before := tree.coherent j
      rw [Coherent,state,pc,chan,(kept j).1,(kept j).2.1]
      exact before
    · exact after
  · rw [children] at child
    obtain ⟨embryo,growing⟩ := tree.forking j np child
    have pc : (s'.proc j).pc = (s.proc j).pc := (pcs j).resolve_right fun none => by rw [none.1] at child; cases child
    refine ⟨(others .embryo id np).mpr embryo,?_⟩
    rw [pc]
    exact growing.congr (kept np).1 (kept np).2.1 (kept np).2.2
  · rw [children,children]
    exact tree.one j k np
  · rw [others .embryo id,(kept p).1]
    intro embryo parent
    have ready := tree.born p q embryo parent
    exact ((pcs q).resolve_right fun none => by rw [ready] at none; cases none.1).trans ready
  · rw [(kept j).1]
    exact tree.foreign j
  · rw [active,others .zombie id] at live
    rw [init] at other
    rw [(kept j).1]
    exact tree.family j live other
  · rw [(kept j).1,active]
    exact tree.lineage j q
  · rw [(kept p).1]
    intro parent
    rw [Ne,others .zombie id]
    exact patient j p asleep here parent
  · rw [active,others .zombie id] at live
    rw [(kept j).2.1,(kept j).2.2]
    exact tree.stocked j live

attribute [local grind] Pc.child ProcState.Active Coherent Growing Next

theorem Tree.forked (tree : Tree s) (on : (s.proc i).state = .running) (young : (s.proc np).state = .embryo ∨ (s.proc np).state = .unused)
    (mine : ∀ j, (s.proc j).pc.child = some np → j = i) (only : ∀ q, (s.proc i).pc.child = some q → q = np) {pc : Pc} {p : Proc}
    (idle : p.pc = (s.proc np).pc) (next : Next i np p pc) : Tree ((s.set np p).goto i pc) := by
  have other : np ≠ i := by
    rintro rfl
    rw [on] at young
    simp at young
  have unborn : (s.proc np).pc.child = none := by
    have := tree.coherent np
    grind
  exact {
    init := by have := tree.init; grind
    coherent := by have := tree.coherent; grind
    forking := by have := tree.forking; grind
    one := by have := tree.one; grind
    born := by have := tree.born; grind
    foreign := by have := tree.foreign; grind
    family := by have := tree.family; grind
    lineage := by have := tree.lineage; grind
    patient := by have := tree.patient; grind
    stocked := by have := tree.stocked; grind }

theorem Tree.congr (tree : Tree s) (table : s'.proc = s.proc) (init : s'.initproc = s.initproc) : Tree s' := by
  refine tree.moved init (fun j => ?_) (fun j => .inl ?_) fun j p => ?_
  · rw [table]
    exact ⟨rfl,rfl,rfl⟩
  · rw [table]
    exact ⟨rfl,rfl,rfl⟩
  · rw [table]
    exact tree.patient j p

theorem forkSlot_tree (tree : Tree s) (on : (s.proc i).state = .running) (here : (s.proc i).pc = .user) (free : (s.proc np).state = .unused) :
    Tree (forkSlot s i np) := by
  have empty := tree.coherent np
  rw [Coherent,free] at empty
  dsimp only at empty
  have nobody (j : Slot) (child : (s.proc j).pc.child = some np) : j = i := by
    have embryo := (tree.forking j np child).1
    rw [free] at embryo
    cases embryo
  have forked : Tree ((s.set np {s.proc np with state := .embryo, pid := s.nextpid}).goto i (.stack np)) :=
    tree.forked on (.inr free) nobody (fun q child => by rw [here] at child; cases child) rfl (.inl ⟨rfl,rfl,⟨empty.1,empty.2.1⟩,.inl empty.1⟩)
  exact forked.congr rfl rfl

theorem Tree.forks (tree : Tree s) (on : (s.proc i).state = .running) (child : (s.proc i).pc.child = some np) {pc : Pc} {p : Proc}
    (idle : p.pc = (s.proc np).pc) (next : Next i np p pc) : Tree ((s.set np p).goto i pc) :=
  tree.forked on (.inl (tree.forking i np child).1) (fun j same => tree.one j i np same child)
    (fun _ same => Option.some.inj (same.symm.trans child)) idle next

theorem Tree.reaped (tree : Tree s) {p : Slot} (parent : (s.proc p).parent = some i) (dead : (s.proc p).state = .zombie)
    {q : Proc} (gone : q.state = .unused) (orphan : q.parent = none) (kstack : q.kstack = none) (pc : q.pc = (s.proc p).pc) : Tree (s.set p q) := by
  have childless (j : Slot) : (s.proc j).parent ≠ some p := fun child => by
    have active := tree.lineage j p child
    rw [dead] at active
    exact active
  have idle := tree.coherent p
  rw [Coherent,dead] at idle
  dsimp only at idle
  exact {
    init := by have := tree.init; grind
    coherent := by have := tree.coherent; grind
    forking := by have := tree.forking; grind
    one := by have := tree.one; grind
    born := by have := tree.born; grind
    foreign := by have := tree.foreign; grind
    family := by have := tree.family; grind
    lineage := by have := tree.lineage; grind
    patient := by have := tree.patient; grind
    stocked := by have := tree.stocked; grind }

theorem forkStack_tree (tree : Tree s) (on : (s.proc i).state = .running) (here : (s.proc i).pc = .stack np) (page : Option Nat) :
    Tree (forkStack s i np page) := by
  have child : (s.proc i).pc.child = some np := by rw [here]; rfl
  obtain ⟨embryo,growing⟩ := tree.forking i np child
  rw [here] at growing
  cases page with
  | none => exact tree.forks on child rfl (.inr ⟨rfl,.inl ⟨rfl,growing.1,rfl⟩⟩)
  | some page =>
    have grown : Tree ((s.set np {s.proc np with kstack := some page}).goto i (.copy np)) :=
      tree.forks on child rfl (.inl ⟨rfl,embryo,⟨growing.1,Option.some_ne_none page⟩,.inl growing.1⟩)
    exact grown.congr rfl rfl

theorem forkCopy_tree (tree : Tree s) (on : (s.proc i).state = .running) (here : (s.proc i).pc = .copy np) (space : Option Nat) :
    Tree (forkCopy s i np space) := by
  have child : (s.proc i).pc.child = some np := by rw [here]; rfl
  obtain ⟨embryo,growing⟩ := tree.forking i np child
  rw [here] at growing
  cases space with
  | none =>
    obtain ⟨pages,message,freed⟩ := freeStack_eq s np
    rw [forkCopy,freed]
    refine Tree.congr (s := (s.set np _).goto i .user) ?_ rfl rfl
    exact tree.forks on child rfl (.inr ⟨rfl,.inl ⟨rfl,growing.1,rfl⟩⟩)
  | some space =>
    have grown : Tree ((s.set np {s.proc np with pgdir := some space, parent := some i}).goto i (.ready np)) :=
      tree.forks on child rfl (.inl ⟨rfl,embryo,⟨rfl,growing.2,Option.some_ne_none space⟩,.inr ⟨rfl,rfl⟩⟩)
    exact grown.congr rfl rfl

theorem forkReady_tree (tree : Tree s) (on : (s.proc i).state = .running) (here : (s.proc i).pc = .ready np) :
    Tree (forkReady s i np) := by
  have child : (s.proc i).pc.child = some np := by rw [here]; rfl
  obtain ⟨-,growing⟩ := tree.forking i np child
  rw [here] at growing
  exact tree.forks on child rfl (.inr ⟨rfl,.inr ⟨rfl,growing⟩⟩)

theorem Tree.turned (tree : Tree s) {p : Proc} (active : (s.proc i).state.Active) (on : p.state.Active) (coherent : Coherent i p)
    (pc : p.pc = (s.proc i).pc ∨ (s.proc i).pc.child = none ∧ p.pc.child = none)
    (kept : p.parent = (s.proc i).parent ∧ p.kstack = (s.proc i).kstack ∧ p.pgdir = (s.proc i).pgdir)
    (patient : p.state = .sleeping → p.pc = .wait → ∀ q, (s.proc q).parent = some i → (s.proc q).state ≠ .zombie) : Tree (s.set i p) := by
  refine tree.moved rfl (fun j => ?_) (fun j => ?_) fun j q asleep here => ?_
  · rw [State.set_proc]
    split_ifs with same
    · rw [same]
      exact kept
    · exact ⟨rfl,rfl,rfl⟩
  · rw [State.set_proc]
    split_ifs with same
    · rw [same]
      exact .inr ⟨active,on,coherent,pc⟩
    · exact .inl ⟨rfl,rfl,rfl⟩
  · rw [State.set_proc] at asleep here
    split_ifs at asleep here with same
    · rw [same]
      exact patient asleep here q
    · exact tree.patient j q asleep here

theorem Tree.back (tree : Tree s) (on : (s.proc i).state = .running) (here : (s.proc i).pc.child = none) : Tree (s.goto i .user) := by
  have active : (s.proc i).state.Active := by rw [on]; trivial
  have coherent : Coherent i {s.proc i with pc := .user} := by rw [Coherent,on]; trivial
  exact tree.turned active active coherent (.inr ⟨here,rfl⟩) ⟨rfl,rfl,rfl⟩ fun _ never => by cases never

theorem wait_tree (tree : Tree s) (on : (s.proc i).state = .running) (here : (s.proc i).pc.child = none) : Tree (wait s i) := by
  obtain ⟨p,parent,dead,reaped⟩ | ⟨none,returns | sleeps⟩ := wait_cases s i
  · have other : i ≠ p := fun same => by rw [← same,on] at dead; cases dead
    obtain ⟨pages,spaces,message,reap⟩ := reap_eq s i p
    have gone : Tree (Ptable.reap s i p) := by
      rw [reap]
      refine Tree.congr (s := s.set p _) ?_ rfl rfl
      exact tree.reaped parent dead rfl rfl rfl rfl
    rw [reaped]
    refine gone.back ?_ ?_
    · rw [reap,State.note_proc,State.set_proc,if_neg other]
      exact on
    · rw [reap,State.note_proc,State.set_proc,if_neg other]
      exact here
  · rw [returns]
    exact tree.back on here
  · rw [sleeps]
    exact tree.turned (by rw [on]; trivial) trivial (.inl ⟨rfl,rfl⟩) (.inr ⟨here,rfl⟩) ⟨rfl,rfl,rfl⟩ fun _ _ => none

theorem exit_tree (tree : Tree s) (on : (s.proc i).state = .running) (here : (s.proc i).pc = .user) : Tree (exit s i) := by
  by_cases first : i = s.initproc
  · rw [exit,if_pos first]
    exact tree.congr rfl rfl
  · have table := exit_proc (s := s) first
    have init : (exit s i).initproc = s.initproc := by
      rw [exit,if_neg first]
      rfl
    generalize exit s i = t at table init
    have parents (j : Slot) : (t.proc j).parent = if (s.proc j).parent = some i then some s.initproc else (s.proc j).parent := by rw [table]
    have same (j : Slot) : (t.proc j).pc = (s.proc j).pc ∧ (t.proc j).chan = (s.proc j).chan ∧ (t.proc j).kstack = (s.proc j).kstack ∧
        (t.proc j).pgdir = (s.proc j).pgdir := by rw [table]; exact ⟨rfl,rfl,rfl,rfl⟩
    have zombie : (t.proc i).state = .zombie := by rw [table]; exact if_pos rfl
    have states (j : Slot) (other : j ≠ i) : (t.proc j).state = (s.proc j).state ∨ (s.proc j).state = .sleeping ∧ (t.proc j).state = .runnable := by
      rw [table]
      dsimp only
      rw [if_neg other]
      split_ifs with woken
      · exact .inr ⟨woken.1,rfl⟩
      · exact .inl rfl
    have woken (j : Slot) (other : j ≠ i) (woken : Woken s i j) : (t.proc j).state = .runnable := by
      rw [table]
      dsimp only
      rw [if_neg other,if_pos woken]
    clear table
    -- A process that forks is not the one that exits.
    have embryos (p : Slot) (embryo : (s.proc p).state = .embryo) : (s.proc p).parent ≠ some i := fun child => by
      have ready := tree.born p i embryo child
      rw [here] at ready
      cases ready
    exact {
      init := by have := tree.init; grind
      coherent := by have := tree.coherent; grind
      forking := by
        intro j np child
        rw [(same j).1] at child ⊢
        obtain ⟨embryo,growing⟩ := tree.forking j np child
        have parent := parents np
        rw [if_neg (embryos np embryo)] at parent
        refine ⟨?_,growing.congr parent (same np).2.2.1 (same np).2.2.2⟩
        have := states np
        grind
      one := by have := tree.one; grind
      born := by have := tree.born; grind
      foreign := by have := tree.foreign; have := tree.init; grind
      family := by have := tree.family; grind
      lineage := by have := tree.lineage; have := tree.init; grind
      patient := by
        intro j p asleep pc parent dead
        have other : j ≠ i := by
          rintro rfl
          rw [zombie] at asleep
          cases asleep
        have before : (s.proc j).state = .sleeping := (states j other).elim (fun same => same.symm.trans asleep) And.left
        have pc' := (same j).1.symm.trans pc
        have chan : (s.proc j).chan = some (.proc j) := by
          have := tree.coherent j
          grind
        have stays : ¬Woken s i j := fun wakes => by
          rw [woken j other wakes] at asleep
          cases asleep
        rw [parents] at parent
        by_cases own : p = i
        · rw [own,if_neg (tree.foreign i)] at parent
          exact stays ⟨before,.inl (by rw [chan,parent]; rfl)⟩
        · have dead' : (s.proc p).state = .zombie := by
            rcases states p own with same | ⟨-,run⟩
            · exact same.symm.trans dead
            · rw [run] at dead
              cases dead
          split_ifs at parent with child
          · cases parent
            exact stays ⟨before,.inr ⟨chan,p,child,dead'⟩⟩
          · exact tree.patient j p before pc' parent dead'
      stocked := by have := tree.stocked; grind }

theorem wakeup1_tree (tree : Tree s) (c : Option Chan) : Tree {s with proc := wakeup1 s.proc c} := by
  refine tree.moved rfl (fun j => ?_) (fun j => ?_) fun j p asleep here => ?_
  · dsimp only
    rw [wakeup1]
    split_ifs <;> exact ⟨rfl,rfl,rfl⟩
  · dsimp only
    rw [wakeup1]
    split_ifs with woken
    · rw [woken.1]
      exact .inr ⟨trivial,trivial,trivial,.inl rfl⟩
    · exact .inl ⟨rfl,rfl,rfl⟩
  · dsimp only at asleep here
    rw [wakeup1] at asleep here
    split_ifs at asleep here
    exact tree.patient j p asleep here

theorem kill_tree (tree : Tree s) (pid : UInt32) : Tree (kill s pid) := by
  rw [kill]
  split
  · rename_i p _
    refine Tree.congr (s := s.set p _) ?_ rfl rfl
    by_cases asleep : (s.proc p).state = .sleeping
    · rw [if_pos asleep]
      exact tree.turned (by rw [asleep]; trivial) trivial trivial (.inl rfl) ⟨rfl,rfl,rfl⟩ fun never => by cases never
    · rw [if_neg asleep]
      refine tree.moved rfl (fun j => by grind) (fun j => .inl (by grind)) fun j q sleeps here => tree.patient j q ?_ ?_ <;> grind
  · exact tree.congr rfl rfl

theorem switch_tree (tree : Tree s) (ready : (s.proc i).state = .runnable) : Tree (switch s i) := by
  have active : (s.proc i).state.Active := by rw [ready]; trivial
  rw [switch]
  split
  · rename_i here
    refine wait_tree (tree.turned active trivial trivial (.inl rfl) ⟨rfl,rfl,rfl⟩ fun never => by cases never) ?_ ?_
    · rw [State.set_proc,if_pos rfl]
    · rw [State.set_proc,if_pos rfl]
      dsimp only
      rw [here]
      rfl
  · rename_i here
    exact tree.turned active trivial trivial (.inr ⟨by rw [here]; rfl,rfl⟩) ⟨rfl,rfl,rfl⟩ fun never => by cases never
  · exact tree.turned active trivial trivial (.inl rfl) ⟨rfl,rfl,rfl⟩ fun never => by cases never

theorem Tree.step {turn : Slot × Move} (tree : Tree s) (stepped : step s turn = some s') : Tree s' := by
  obtain ⟨i,m⟩ := turn
  obtain ⟨-,moves⟩ := step_moves stepped
  have active (on : (s.proc i).state = .running) : (s.proc i).state.Active := by rw [on]; trivial
  cases moves with
  | wakeup a => exact wakeup1_tree tree _
  | switch ready => exact switch_tree tree ready
  | yield on => exact tree.turned (active on) trivial trivial (.inl rfl) ⟨rfl,rfl,rfl⟩ fun never => by cases never
  | fork on here =>
    obtain same | ⟨np,free,forked⟩ := fork_cases s i
    · rw [same]
      exact tree
    · rw [forked]
      exact forkSlot_tree tree on here free
  | kalloc np page on here fresh => exact forkStack_tree tree on here page
  | copyuvm np space on here fresh => exact forkCopy_tree tree on here space
  | ready np on here => exact forkReady_tree tree on here
  | exit on here => exact exit_tree tree on here
  | wait on here => exact wait_tree tree on (by rw [here]; rfl)
  | kill pid => exact kill_tree tree pid
  | sleep a on here =>
    exact tree.turned (active on) trivial (.inr ⟨rfl,a,rfl⟩) (.inr ⟨by rw [here]; rfl,rfl⟩) ⟨rfl,rfl,rfl⟩ fun _ never => by cases never
  | fault on here =>
    have killed : Tree (s.set i {s.proc i with killed := true}) :=
      tree.turned (active on) (active on) (by rw [Coherent,on]; trivial) (.inl rfl) ⟨rfl,rfl,rfl⟩
        fun asleep => by rw [on] at asleep; cases asleep
    exact killed.congr rfl rfl

end

theorem boot_tree : Tree boot := by
  have parents (i : Slot) : (boot.proc i).parent = none := by simp only [boot]; split_ifs <;> rfl
  have pcs (i : Slot) : (boot.proc i).pc = .user := by simp only [boot]; split_ifs <;> rfl
  have states (i : Slot) : (boot.proc i).state = if i = 0 then .runnable else .unused := by simp only [boot]; split_ifs <;> rfl
  have kstacks (i : Slot) : i ≠ 0 → (boot.proc i).kstack = none := fun other => by simp only [boot]; rw [if_neg other]
  have first : (boot.proc 0).kstack = some 0 ∧ (boot.proc 0).pgdir = some 0 := ⟨rfl,rfl⟩
  have init : boot.initproc = 0 := rfl
  generalize boot = s at *
  exact {
    init := by grind [ProcState.Active]
    coherent := by grind [Coherent,Pc.child]
    forking := by grind [Pc.child]
    one := by grind [Pc.child]
    born := by grind
    foreign := by grind
    family := by grind [ProcState.Active]
    lineage := by grind
    patient := by grind
    stocked := by grind [ProcState.Active] }

end Xv6Ext2.Ptable
