import Xv6Ext2.Vm.Alloc

/-! Conservation of pages: what a call works with are the free pages, the pages in its hand and those of its directory. Calls
on the directory move pages between these and write no others. -/
namespace Xv6Ext2.Vm
open Lib Bio

def Has (s : Machine) (d : UInt32) (hand : Set UInt32) (f : UInt32) : Prop := f ∈ s.free ∨ f ∈ hand ∨ ∃ r, Owns s.mem d r f

structure Conserves (s s' : Machine) (d : UInt32) (hand hand' : Set UInt32) : Prop where
  has : ∀ f, Has s' d hand' f ↔ Has s d hand f
  mem : ∀ g, ¬Has s d hand g → s'.mem g = s.mem g

variable {k : Linked} {s s' s'' : Machine} {d f : UInt32} {others hand hand' hand'' held : Set UInt32} {lo hi : Nat}

theorem Conserves.refl (s : Machine) (d : UInt32) (hand : Set UInt32) : Conserves s s d hand hand := ⟨fun _ => Iff.rfl,fun _ _ => rfl⟩

theorem Conserves.trans (first : Conserves s s' d hand hand') (second : Conserves s' s'' d hand' hand'') : Conserves s s'' d hand hand'' where
  has f := (second.has f).trans (first.has f)
  mem g outside := (second.mem g fun inside => outside ((first.has g).mp inside)).trans (first.mem g outside)

theorem Has.of_inTables (inside : InTables s.mem d f) : Has s d hand f := by
  obtain ⟨r,_,owned⟩ := inside.owned
  exact .inr (.inr ⟨r,owned⟩)

theorem Grown.conserves (grown : Grown s s' d held) (taken : ∀ g ∈ held, g ∈ s.free)
    (user : ∀ g, (g ∈ hand' ∨ ∃ n, Owns s'.mem d (.user n) g) ↔ g ∈ held ∨ g ∈ hand ∨ ∃ n, Owns s.mem d (.user n) g) :
    Conserves s s' d hand hand' := by
  refine ⟨?_,?_⟩
  · intro g
    constructor
    · rintro (free | mine | ⟨r,owned⟩)
      · exact .inl (grown.subset free)
      · rcases (user g).mp (.inl mine) with got | mine | ⟨n,owned⟩
        · exact .inl (taken g got)
        · exact .inr (.inl mine)
        · exact .inr (.inr ⟨_,owned⟩)
      · cases r with
        | dir => exact .inr (.inr ⟨.dir,owned⟩)
        | table i =>
          rcases grown.tables i owned.1 g owned.2 with old | new
          · exact .inr (.inr ⟨.table i,owned.1,old⟩)
          · exact .inl new
        | user n =>
          rcases (user g).mp (.inr ⟨n,owned⟩) with got | mine | ⟨n,owned⟩
          · exact .inl (taken g got)
          · exact .inr (.inl mine)
          · exact .inr (.inr ⟨_,owned⟩)
    · rintro (free | mine | ⟨r,owned⟩)
      · rcases grown.used g free with left | got | ⟨i,small,_,there⟩
        · exact .inl left
        · rcases (user g).mpr (.inl got) with mine | ⟨n,owned⟩
          · exact .inr (.inl mine)
          · exact .inr (.inr ⟨_,owned⟩)
        · exact .inr (.inr ⟨.table i,small,there⟩)
      · rcases (user g).mpr (.inr (.inl mine)) with mine | ⟨n,owned⟩
        · exact .inr (.inl mine)
        · exact .inr (.inr ⟨_,owned⟩)
      · cases r with
        | dir => exact .inr (.inr ⟨.dir,owned⟩)
        | table i => exact .inr (.inr ⟨.table i,owned.1,grown.kept i owned.1 g owned.2⟩)
        | user n =>
          rcases (user g).mpr (.inr (.inr ⟨n,owned⟩)) with mine | ⟨n,owned⟩
          · exact .inr (.inl mine)
          · exact .inr (.inr ⟨_,owned⟩)
  · intro g outside
    exact grown.mem g (fun free => outside (.inl free)) fun inside => outside (.of_inTables inside)

theorem Grown.conserves_kernel (grown : Grown s s' d ∅) (same : ∀ n < 524288, pte s'.mem d n = pte s.mem d n) :
    Conserves s s' d hand hand := by
  refine grown.conserves (fun _ never => never.elim) ?_
  intro g
  have users : (∃ n, Owns s'.mem d (.user n) g) ↔ ∃ n, Owns s.mem d (.user n) g := by
    refine exists_congr fun n => ?_
    by_cases low : n < 524288
    · rw [Owns,Owns,same n low]
    · simp only [Owns,low,false_and]
  rw [users]
  exact ⟨.inr,fun either => either.resolve_left fun never => never⟩

theorem Grown.conserves_map {n : Nat} {w : UInt32} (grown : Grown s s' d ∅) (low : n < 524288) (clear : ¬Present (pte s.mem d n))
    (present : Present w) (address : pteAddr w = f) (entries : ∀ n' < 1048576, pte s'.mem d n' = if n' = n then w else pte s.mem d n') :
    Conserves s s' d (insert f hand) hand := by
  refine grown.conserves (fun _ never => never.elim) ?_
  intro g
  constructor
  · rintro (mine | ⟨n',low',now,is⟩)
    · exact .inr (.inl (Set.mem_insert_of_mem _ mine))
    · rw [entries n' (by omega)] at now is
      by_cases here : n' = n
      · rw [if_pos here,address] at is
        exact .inr (.inl (is ▸ Set.mem_insert _ _))
      · rw [if_neg here] at now is
        exact .inr (.inr ⟨n',low',now,is⟩)
  · rintro (never | mine | ⟨n',low',was,is⟩)
    · exact never.elim
    · rcases mine with here | mine
      · refine .inr ⟨n,low,?_,?_⟩
        · rw [entries n (by omega),if_pos rfl]
          exact present
        · rw [entries n (by omega),if_pos rfl,address,here]
      · exact .inl mine
    · have other : n' ≠ n := fun here => clear (here ▸ was)
      refine .inr ⟨n',low',?_,?_⟩
      · rw [entries n' (by omega),if_neg other]
        exact was
      · rw [entries n' (by omega),if_neg other]
        exact is

private theorem in_hand {first free hand owned : Prop} :
    free ∨ (first ∨ hand) ∨ owned ↔ (first ∨ free) ∨ hand ∨ owned := by tauto

theorem Conserves.take {rest : List UInt32} (sep : Separate k s d others) (head : s.free = f :: rest) (list : s'.free = rest)
    (same : ∀ g, g ≠ f → s'.mem g = s.mem g) : Conserves s s' d hand (insert f hand) := by
  have first : f ∈ s.free := by
    rw [head]
    exact List.mem_cons_self
  have kept : ∀ g, InTables s.mem d g → s'.mem g = s.mem g := by
    intro g inside
    exact same g fun here => sep.inTables_free inside (here ▸ first)
  refine ⟨?_,?_⟩
  · intro g
    simp only [Has,list,head,List.mem_cons,owns_congr kept,Set.mem_insert_iff]
    exact in_hand
  · intro g outside
    exact same g fun here => outside (.inl (here ▸ first))

theorem Conserves.give (outside : ¬InTables s.mem d f) (list : s'.free = f :: s.free) (same : ∀ g, g ≠ f → s'.mem g = s.mem g) :
    Conserves s s' d (insert f hand) hand := by
  have kept : ∀ g, InTables s.mem d g → s'.mem g = s.mem g := by
    intro g inside
    exact same g fun here => outside (here ▸ inside)
  refine ⟨?_,?_⟩
  · intro g
    simp only [Has,list,List.mem_cons,owns_congr kept,Set.mem_insert_iff]
    exact in_hand.symm
  · intro g away
    exact same g fun here => away (.inr (.inl (here ▸ Set.mem_insert _ _)))

theorem Shrunk.conserves (shrunk : Shrunk s s' d lo hi) (bound : hi ≤ 524288) : Conserves s s' d hand hand := by
  obtain ⟨freed,list,is⟩ := shrunk.free
  have has : ∀ f, Has s' d hand f ↔ Has s d hand f := by
    intro g
    constructor
    · rintro (free | mine | ⟨r,owned⟩)
      · rw [list] at free
        rcases List.mem_append.mp free with new | old
        · obtain ⟨n,_,above,present,address⟩ := (is g).mp new
          exact .inr (.inr ⟨.user n,by omega,present,address.symm⟩)
        · exact .inl old
      · exact .inr (.inl mine)
      · cases r with
        | dir => exact .inr (.inr ⟨.dir,owned⟩)
        | table i =>
          rw [Owns,shrunk.tables] at owned
          exact .inr (.inr ⟨.table i,owned⟩)
        | user n =>
          obtain ⟨low,present,address⟩ := owned
          rw [shrunk.entries n (by omega)] at present address
          by_cases gone : lo ≤ n ∧ n < hi ∧ Present (pte s.mem d n)
          · rw [if_pos gone] at present
            exact absurd present not_present_zero
          · rw [if_neg gone] at present address
            exact .inr (.inr ⟨.user n,low,present,address⟩)
    · rintro (free | mine | ⟨r,owned⟩)
      · exact .inl (shrunk.subset free)
      · exact .inr (.inl mine)
      · cases r with
        | dir => exact .inr (.inr ⟨.dir,owned⟩)
        | table i =>
          rw [Owns,← shrunk.tables] at owned
          exact .inr (.inr ⟨.table i,owned⟩)
        | user n =>
          obtain ⟨low,present,address⟩ := owned
          by_cases gone : lo ≤ n ∧ n < hi ∧ Present (pte s.mem d n)
          · refine .inl ?_
            rw [list]
            exact List.mem_append_left _ ((is g).mpr ⟨n,gone.1,gone.2.1,present,address.symm⟩)
          · have entry := shrunk.entries n (by omega)
            rw [if_neg gone] at entry
            exact .inr (.inr ⟨.user n,low,entry.symm ▸ present,entry.symm ▸ address⟩)
  refine ⟨has,?_⟩
  intro g outside
  refine shrunk.mem g (fun inside => outside (.of_inTables inside)) (.inl fun inside => ?_)
  exact outside ((has g).mp (.inl inside))

theorem Filled.conserves (start : Separate k s d others) (filled : Filled s s' d lo hi ∅) (bound : hi ≤ 524288)
    (clear : ∀ n, lo ≤ n → n < hi → ¬Present (pte s.mem d n)) : Conserves s s' d hand hand := by
  have fresh (n : Nat) (above : lo ≤ n) (below : n < hi) : pteAddr (pte s'.mem d n) ∈ s.free ∧ Present (pte s'.mem d n) := by
    obtain ⟨f,free,entry,_⟩ := filled.new n above below
    rw [entry,pteAddr_entry (start.freeFrame f free).aligned (by decide)]
    exact ⟨free,present_entry _ _⟩
  refine filled.grown.conserves ?_ ?_
  · rintro g (⟨n,above,below,address⟩ | never)
    · exact address ▸ (fresh n above below).1
    · exact never.elim
  · intro g
    constructor
    · rintro (mine | ⟨n,low,present,address⟩)
      · exact .inr (.inl mine)
      · by_cases new : lo ≤ n ∧ n < hi
        · exact .inl (.inl ⟨n,new.1,new.2,address.symm⟩)
        · rw [filled.old n (by omega) new] at present address
          exact .inr (.inr ⟨n,low,present,address⟩)
    · rintro ((⟨n,above,below,address⟩ | never) | mine | ⟨n,low,present,address⟩)
      · exact .inr ⟨n,by omega,(fresh n above below).2,address.symm⟩
      · exact never.elim
      · exact .inl mine
      · have old : ¬(lo ≤ n ∧ n < hi) := fun new => clear n new.1 new.2 present
        have same := filled.old n (by omega) old
        exact .inr ⟨n,low,same.symm ▸ present,same.symm ▸ address⟩

theorem Restored.conserves (restored : Restored s s' d ∅) : Conserves s s' d hand hand := by
  have users (n : Nat) (g : UInt32) : Owns s'.mem d (.user n) g ↔ Owns s.mem d (.user n) g := by
    by_cases low : n < 524288
    · by_cases was : Present (pte s.mem d n)
      · rw [Owns,Owns,restored.mapped n (by omega) was]
      · have absent := restored.unmapped n (by omega) was
        exact ⟨fun owned => absurd owned.2.1 absent,fun owned => absurd owned.2.1 was⟩
    · simp only [Owns,low,false_and]
  refine ⟨?_,?_⟩
  · intro g
    constructor
    · rintro (free | mine | ⟨r,owned⟩)
      · exact .inl ((restored.free g).mpr (.inl free))
      · exact .inr (.inl mine)
      · cases r with
        | dir => exact .inr (.inr ⟨.dir,owned⟩)
        | table i =>
          cases was : tableAt s.mem d i with
          | none => exact .inl ((restored.free g).mpr (.inr (.inr ⟨i,owned.1,was,owned.2⟩)))
          | some t =>
            have same : some t = some g := (restored.kept i owned.1 t was).symm.trans owned.2
            exact .inr (.inr ⟨.table i,owned.1,was.trans same⟩)
        | user n => exact .inr (.inr ⟨.user n,(users n g).mp owned⟩)
    · rintro (free | mine | ⟨r,owned⟩)
      · rcases (restored.free g).mp free with left | never | ⟨i,small,_,there⟩
        · exact .inl left
        · exact never.elim
        · exact .inr (.inr ⟨.table i,small,there⟩)
      · exact .inr (.inl mine)
      · cases r with
        | dir => exact .inr (.inr ⟨.dir,owned⟩)
        | table i => exact .inr (.inr ⟨.table i,owned.1,restored.kept i owned.1 g owned.2⟩)
        | user n => exact .inr (.inr ⟨.user n,(users n g).mpr owned⟩)
  · intro g outside
    exact restored.mem g (fun free => outside (.inl free)) fun inside => outside (.of_inTables inside)

end Xv6Ext2.Vm
