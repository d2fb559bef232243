import Xv6Ext2.ProcessRuns

/-! The parents of every process lead to the first one, and the only panic of these calls is the one for its `exit`. -/
namespace Xv6Ext2.Ptable
open Lib Relation

abbrev Child (s : State) (p q : Slot) : Prop := (s.proc p).parent = some q

structure Rooted (s : State) : Prop where
  tree : Tree s
  root : ∀ p q, Child s p q → ReflTransGen (Child s) q s.initproc
  calm : s.panicked = none ∨ s.panicked = some "init exiting"

variable {s s' : State} {i q : Slot} {m : Move}

theorem Rooted.line (rooted : Rooted s) (live : (s.proc q).state.Active ∨ (s.proc q).state = .zombie) :
    ReflTransGen (Child s) q s.initproc := by
  by_cases first : q = s.initproc
  · rw [first]
  · obtain ⟨r,parent⟩ := Option.ne_none_iff_exists'.mp (rooted.tree.family q live first)
    exact .head parent (rooted.root q r parent)

/-- A line stays where its processes keep their parents or get the first process for one. -/
theorem Rooted.moved (rooted : Rooted s)
    (kept : ∀ p q, (s.proc p).state.Active → Child s p q → Child s' p q ∨ Child s' p s.initproc)
    (new : ∀ p q, Child s' p q → q = s.initproc ∨ (s.proc q).state.Active) {p : Slot} (child : Child s' p q) :
    ReflTransGen (Child s') q s.initproc := by
  have line {q : Slot} (above : ReflTransGen (Child s) q s.initproc) : (s.proc q).state.Active → ReflTransGen (Child s') q s.initproc := by
    induction above using ReflTransGen.head_induction_on with
    | refl => exact fun _ => .refl
    | @head a b parent _ ih =>
      intro active
      obtain same | first := kept a b active parent
      · exact .head same (ih (rooted.tree.lineage a b parent))
      · exact .single first
  obtain rfl | active := new p q child
  · exact .refl
  · exact line (rooted.line (.inl active)) active

theorem Rooted.same (rooted : Rooted s) (parents : ∀ p, (s'.proc p).parent = (s.proc p).parent) (p q : Slot) (child : Child s' p q) :
    ReflTransGen (Child s') q s.initproc := by
  refine rooted.moved (fun a b _ parent => .inl ((parents a).trans parent)) (fun a b parent => .inr ?_) child
  exact rooted.tree.lineage a b ((parents a).symm.trans parent)

theorem Rooted.step (rooted : Rooted s) (effect : Effect s i m s') (tree : Tree s') : Rooted s' := by
  have lineage := rooted.tree.lineage
  cases effect with
  | quiet quiet =>
    refine ⟨tree,?_,quiet.panicked ▸ rooted.calm⟩
    rw [quiet.init]
    exact rooted.same fun p => congrArg (·.2.1) (quiet.same p)
  | fork np free => exact ⟨tree,rooted.same fun p => by rw [forkSlot_proc],rooted.calm⟩
  | stack np page here => cases page <;> exact ⟨tree,rooted.same fun p => by rw [forkStack]; grind,rooted.calm⟩
  | copy np space on here =>
    obtain ⟨embryo,grows⟩ := rooted.tree.forking i np (by rw [here]; rfl)
    rw [here] at grows
    cases space with
    | none =>
      obtain ⟨page,stack⟩ := Option.ne_none_iff_exists'.mp grows.2
      have freed : freeStack s np = {s with kstacks := s.kstacks.erase page} := by rw [freeStack,stack]
      rw [forkCopy,freed] at tree ⊢
      exact ⟨tree,rooted.same fun p => by grind,rooted.calm⟩
    | some space =>
      refine ⟨tree,fun p q => rooted.moved (fun a b active parent => .inl ?_) (fun a b parent => .inr ?_),rooted.calm⟩
      · have old : a ≠ np := fun same => by rw [same,embryo] at active; exact active
        rw [forkCopy]
        grind
      · rw [forkCopy] at parent
        have active : (s.proc i).state.Active := by rw [on]; trivial
        by_cases child : a = np <;> grind
  | ready np here => exact ⟨tree,rooted.same fun p => by rw [forkReady]; grind,rooted.calm⟩
  | panic => exact ⟨tree,rooted.root,.inr rfl⟩
  | exit on other =>
    have rest : (exit s i).initproc = s.initproc ∧ (exit s i).panicked = s.panicked := by rw [Ptable.exit,if_neg other]; exact ⟨rfl,rfl⟩
    refine ⟨tree,fun p q child => ?_,rest.2 ▸ rooted.calm⟩
    rw [rest.1]
    refine rooted.moved (fun a b _ parent => ?_) (fun a b parent => ?_) child
    · grind [exit_proc]
    · grind [exit_proc]
  | @reap _ t p quiet on parent dead =>
    have zombie := (quiet.state p).2.1.mp dead
    obtain ⟨page,space,-,-,reaped⟩ := rooted.tree.reap_eq quiet dead
    have table (j : Slot) : (((reap t i p).goto i .user).proc j).parent = if j = p then none else (s.proc j).parent := by
      have parents : (t.proc j).parent = (s.proc j).parent := congrArg (·.2.1) (quiet.same j)
      rw [reaped]
      simp only [State.goto_proc,State.note_proc,State.set_proc]
      split_ifs <;> simp_all
    have rest : (reap t i p).initproc = s.initproc ∧ (reap t i p).panicked = s.panicked := by
      rw [reaped,← quiet.init,← quiet.panicked]
      exact ⟨rfl,rfl⟩
    refine ⟨tree,fun a b child => ?_,?_⟩
    · change ReflTransGen _ b (reap t i p).initproc
      rw [rest.1]
      refine rooted.moved (fun a b active parent => .inl ?_) (fun a b parent => .inr (lineage a b ?_)) child
      · rw [Child,table,if_neg fun same => by rw [same,zombie] at active; exact active]
        exact parent
      · grind
    · change (reap t i p).panicked = none ∨ (reap t i p).panicked = _
      rw [rest.2]
      exact rooted.calm
  | kill pid =>
    rw [Ptable.kill] at tree ⊢
    split at tree
    · exact ⟨tree,rooted.same fun j => by rw [State.note_proc]; grind,rooted.calm⟩
    · exact ⟨tree,rooted.same fun j => rfl,rooted.calm⟩
  | fault on => exact ⟨tree,rooted.same fun p => by rw [State.note_proc]; grind,rooted.calm⟩

theorem rooted_run {turns : List (Slot × Move)} {s : State} (ran : schedule step turns boot = some s) : Rooted s := by
  refine schedule_invariant (fun _ _ _ rooted stepped => ?_) ⟨boot_tree,fun p q child => ?_,.inl rfl⟩ ran
  · exact rooted.step (step_moves stepped).2.effect (rooted.tree.step stepped)
  · simp only [Child,boot] at child
    split_ifs at child

/-- In every state that a run reaches, the parents of every process and zombie lead to the first process, which has none. -/
theorem process_rooted {turns : List (Slot × Move)} {s : State} (ran : schedule step turns boot = some s) (p : Slot)
    (live : (s.proc p).state.Active ∨ (s.proc p).state = .zombie) :
    (s.proc s.initproc).parent = none ∧ ReflTransGen (Child s) p s.initproc :=
  ⟨(rooted_run ran).tree.init.2,(rooted_run ran).line live⟩

theorem process_rooted_child : ∃ s, schedule step [(0,.switch),(0,.fork),(0,.kalloc (some 1)),(0,.copyuvm (some 1)),(0,.ready)] boot = some s ∧
    (s.proc 1).state = .runnable ∧ ReflTransGen (Child s) 1 s.initproc := by
  have returns : ((schedule step [(0,.switch),(0,.fork),(0,.kalloc (some 1)),(0,.copyuvm (some 1)),(0,.ready)] boot).map fun s =>
      (s.proc 1).state) = some .runnable := by decide +kernel
  obtain ⟨s,ran,ready⟩ := Option.map_eq_some_iff.mp returns
  exact ⟨s,ran,ready,(process_rooted ran 1 (.inl (by rw [ready]; trivial))).2⟩

/-- No run panics for a stack or a memory that `fork` or `wait` frees; what panics is `exit` of the first process. -/
theorem panics_only_for_init {turns : List (Slot × Move)} {s : State} {message : String} (ran : schedule step turns boot = some s)
    (panicked : s.panicked = some message) : message = "init exiting" := by
  obtain calm | init := (rooted_run ran).calm
  · cases calm.symm.trans panicked
  · exact Option.some.inj (panicked.symm.trans init)

theorem panics_only_for_init_exit : ∃ s message, schedule step [(0,.switch),(0,.exit)] boot = some s ∧ s.panicked = some message ∧
    message = "init exiting" := by
  have returns : ((schedule step [(0,.switch),(0,.exit)] boot).bind (·.panicked)) = some "init exiting" := by decide +kernel
  obtain ⟨s,ran,panicked⟩ := Option.bind_eq_some_iff.mp returns
  exact ⟨s,_,ran,panicked,panics_only_for_init ran panicked⟩

end Xv6Ext2.Ptable
