import Xv6Ext2.Vm.Conserve

/-! `freevm` puts every page of a directory on the free list, once. -/
namespace Xv6Ext2.Vm
open Lib Bio

variable {k : Linked} {s s' s'' : Machine} {d f : UInt32} {others : Set UInt32} {m : Memory}

/-- The free list with pages that are in use by others. -/
structure Pool (k : Linked) (s : Machine) (others : Set UInt32) : Prop where
  nodup : s.free.Nodup
  frame : ∀ f ∈ s.free, k.Frame f
  own : ∀ f ∈ s.free, f ∉ others

theorem Separate.pool (sep : Separate k s d others) : Pool k s others := ⟨sep.nodup,sep.freeFrame,sep.freeOwn⟩

theorem Pool.give (pool : Pool k s others) (frame : k.Frame f) (taken : f ∉ s.free) (held : f ∉ others) (list : s'.free = f :: s.free) :
    Pool k s' others := by
  refine ⟨?_,?_,?_⟩
  · rw [list]
    exact List.nodup_cons.mpr ⟨taken,pool.nodup⟩
  · intro g inside
    rw [list] at inside
    rcases List.mem_cons.mp inside with here | there
    · exact here ▸ frame
    · exact pool.frame g there
  · intro g inside
    rw [list] at inside
    rcases List.mem_cons.mp inside with here | there
    · exact here ▸ held
    · exact pool.own g there

structure Freed (s s' : Machine) (d : UInt32) : Prop where
  free : ∀ f, f ∈ s'.free ↔ Has s d ∅ f
  mem : ∀ g, ¬Has s d ∅ g → s'.mem g = s.mem g

theorem Conserves.freed (before : Conserves s s' d ∅ ∅) (freed : Freed s' s'' d) : Freed s s'' d where
  free f := (freed.free f).trans (before.has f)
  mem g outside := (freed.mem g fun inside => outside ((before.has g).mp inside)).trans (before.mem g outside)

theorem freeTables_meets (free : List UInt32) (apart : ∀ i < 1024, ∀ j < 1024, ∀ t, tableAt m d i = some t → tableAt m d j = some t → i = j)
    (dir : ∀ i < 1024, tableAt m d i ≠ some d) (frames : ∀ i < 1024, ∀ t, tableAt m d i = some t → k.Frame t ∧ t ∉ free ∧ t ∉ others)
    (rest i : Nat) (all : i + rest = 1024) (pool : Pool k s others)
    (list : ∀ f, f ∈ s.free ↔ f ∈ free ∨ ∃ j < i, tableAt m d j = some f)
    (same : ∀ g, (∀ j < i, tableAt m d j ≠ some g) → s.mem g = m g) :
    Meets (freeTables k d rest i) s
      (fun _ s' => Pool k s' others ∧ (∀ f, f ∈ s'.free ↔ f ∈ free ∨ ∃ j < 1024, tableAt m d j = some f) ∧
        ∀ g, (∀ j < 1024, tableAt m d j ≠ some g) → s'.mem g = m g) fun _ => False := by
  induction rest generalizing s i with
  | zero =>
    obtain rfl : i = 1024 := by omega
    exact .pure_intro ⟨pool,list,same⟩
  | succ rest ih =>
    have page : s.mem d = m d := same d fun j below => dir j (by omega)
    have read : word d i s = .ok (pde m d i,s) := by
      rw [← pde_congr page]
      rfl
    rw [freeTables]
    refine .step read ?_
    by_cases present : Present (pde m d i)
    · rw [if_pos present]
      have there : tableAt m d i = some (pteAddr (pde m d i)) := if_pos present
      obtain ⟨frame,away,held⟩ := frames i (by omega) _ there
      have taken : pteAddr (pde m d i) ∉ s.free := by
        intro inside
        rcases (list _).mp inside with old | ⟨j,below,also⟩
        · exact away old
        · have := apart i (by omega) j (by omega) _ there also
          omega
      obtain ⟨s',ran,list',same'⟩ := kfree_run (s := s) frame
      refine .step ran (ih (i + 1) (by omega) (pool.give frame taken held list') ?_ ?_)
      · intro f
        rw [list',List.mem_cons,list]
        constructor
        · rintro (here | old | ⟨j,below,also⟩)
          · exact .inr ⟨i,by omega,here ▸ there⟩
          · exact .inl old
          · exact .inr ⟨j,by omega,also⟩
        · rintro (old | ⟨j,below,also⟩)
          · exact .inr (.inl old)
          · by_cases here : j = i
            · rw [here,there] at also
              exact .inl (Option.some.inj also).symm
            · exact .inr (.inr ⟨j,by omega,also⟩)
      · intro g other
        rw [same' g (fun here => other i (by omega) (here ▸ there)),same g fun j below => other j (by omega)]
    · rw [if_neg present]
      have missing : tableAt m d i = none := if_neg present
      refine ih (i + 1) (by omega) pool ?_ ?_
      · intro f
        rw [list]
        constructor
        · rintro (old | ⟨j,below,also⟩)
          · exact .inl old
          · exact .inr ⟨j,by omega,also⟩
        · rintro (old | ⟨j,below,also⟩)
          · exact .inl old
          · by_cases here : j = i
            · rw [here,missing] at also
              cases also
            · exact .inr ⟨j,by omega,also⟩
      · intro g other
        exact same g fun j below => other j (by omega)

theorem freevm_meets (sep : Separate k s d others) :
    Meets (freevm k d) s (fun _ s' => Pool k s' others ∧ Freed s s' d) fun _ => False := by
  have base : kernBase.toNat = 2147483648 := rfl
  have none : pages 0 = 0 := rfl
  have all : pages kernBase = 524288 := rfl
  rw [freevm]
  refine (deallocuvm_meets sep (by omega) (by decide)).bind ?_
  intro _ s₁ after
  obtain ⟨_,sep₁,shrunk⟩ := after
  rw [none,all] at shrunk
  obtain ⟨freed,list,is⟩ := shrunk.free
  have apart (i : Nat) (small : i < 1024) (j : Nat) (small' : j < 1024) (t : UInt32) (there : tableAt s₁.mem d i = some t)
      (also : tableAt s₁.mem d j = some t) : i = j := (sep₁.table_alone small small' there also).symm
  have frames (i : Nat) (small : i < 1024) (t : UInt32) (there : tableAt s₁.mem d i = some t) :
      k.Frame t ∧ t ∉ s₁.free ∧ t ∉ others :=
    ⟨sep₁.frame (.table i) t ⟨small,there⟩,sep₁.taken (.table i) t ⟨small,there⟩,sep₁.own (.table i) t ⟨small,there⟩⟩
  have start (f : UInt32) : f ∈ s₁.free ↔ f ∈ s₁.free ∨ ∃ j < 0, tableAt s₁.mem d j = some f := by
    constructor
    · exact .inl
    · rintro (inside | ⟨j,below,_⟩)
      · exact inside
      · omega
  refine (freeTables_meets s₁.free apart (fun i small => sep₁.table_ne_dir small) frames npdEntries 0 rfl sep₁.pool start
    fun _ _ => rfl).bind ?_
  intro _ s₂ after
  obtain ⟨pool,list₂,same₂⟩ := after
  have frame := sep₁.frame .dir d rfl
  have away : d ∉ s₂.free := by
    intro inside
    rcases (list₂ d).mp inside with old | ⟨j,small,there⟩
    · exact sep₁.dir_free old
    · exact sep₁.table_ne_dir small there
  obtain ⟨s₃,ran,list₃,same₃⟩ := kfree_run (s := s₂) frame
  have all (f : UInt32) : f ∈ s₃.free ↔ Has s d ∅ f := by
    rw [list₃,List.mem_cons,list₂,list,List.mem_append,is]
    constructor
    · rintro (here | (⟨n,_,low,present,address⟩ | old) | ⟨i,small,there⟩)
      · exact .inr (.inr ⟨.dir,here⟩)
      · exact .inr (.inr ⟨.user n,low,present,address.symm⟩)
      · exact .inl old
      · exact .inr (.inr ⟨.table i,small,by rw [← shrunk.tables]; exact there⟩)
    · rintro (old | never | ⟨r,owned⟩)
      · exact .inr (.inl (.inr old))
      · exact never.elim
      · cases r with
        | dir => exact .inl owned
        | table i => exact .inr (.inr ⟨i,owned.1,by rw [shrunk.tables]; exact owned.2⟩)
        | user n => exact .inr (.inl (.inl ⟨n,Nat.zero_le n,owned.1,owned.2.1,owned.2.2.symm⟩))
  refine .of_ok ran ⟨pool.give frame away (sep₁.own .dir d rfl) list₃,all,?_⟩
  intro g outside
  have notDir : g ≠ d := fun here => outside (.inr (.inr ⟨.dir,here⟩))
  have notTable (j : Nat) (small : j < 1024) : tableAt s₁.mem d j ≠ some g := by
    rw [shrunk.tables]
    exact fun there => outside (.inr (.inr ⟨.table j,small,there⟩))
  rw [same₃ g notDir,same₂ g notTable]
  exact (shrunk.conserves le_rfl).mem g outside

end Xv6Ext2.Vm
