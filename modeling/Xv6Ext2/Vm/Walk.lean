import Xv6Ext2.Vm.Spaces

/-! `walkpgdir`, `mappages` and `kfree` on address spaces. -/
namespace Xv6Ext2.Vm
open Lib Bio Function

variable {k : Linked} {s s' s'' : Machine} {d f g t va : UInt32} {others : Set UInt32} {n : Nat} {rest : List UInt32}

/-- Pages were taken off the free list for `held` and for tables that were added to a directory. -/
structure Grown (s s' : Machine) (d : UInt32) (held : Set UInt32) : Prop where
  free : ∃ used, s.free = used ++ s'.free
  used : ∀ f ∈ s.free, f ∈ s'.free ∨ f ∈ held ∨ ∃ i < 1024, tableAt s.mem d i = none ∧ tableAt s'.mem d i = some f
  kept : ∀ i < 1024, ∀ t, tableAt s.mem d i = some t → tableAt s'.mem d i = some t
  tables : ∀ i < 1024, ∀ t, tableAt s'.mem d i = some t → tableAt s.mem d i = some t ∨ t ∈ s.free
  mem : ∀ g, g ∉ s.free → ¬InTables s.mem d g → s'.mem g = s.mem g

namespace Grown

variable {held more : Set UInt32}

theorem refl (s : Machine) (d : UInt32) : Grown s s d ∅ :=
  ⟨⟨[],rfl⟩,fun _ inside => .inl inside,fun _ _ _ there => there,fun _ _ _ there => .inl there,fun _ _ _ => rfl⟩

theorem subset (grown : Grown s s' d held) (inside : f ∈ s'.free) : f ∈ s.free := by
  obtain ⟨used,list⟩ := grown.free
  rw [list]
  exact List.mem_append_right _ inside

theorem inTables (grown : Grown s s' d held) (inside : InTables s'.mem d f) : InTables s.mem d f ∨ f ∈ s.free := by
  rcases inside with here | ⟨i,small,there⟩
  · exact .inl (.inl here)
  · rcases grown.tables i small f there with old | new
    · exact .inl (.inr ⟨i,small,old⟩)
    · exact .inr new

theorem missing (grown : Grown s s' d held) {i : Nat} (small : i < 1024) (absent : tableAt s'.mem d i = none) :
    tableAt s.mem d i = none := by
  cases there : tableAt s.mem d i with
  | none => rfl
  | some t =>
    rw [grown.kept i small t there] at absent
    cases absent

theorem widen (grown : Grown s s' d held) (wider : held ⊆ more) : Grown s s' d more where
  free := grown.free
  used f inside := (grown.used f inside).imp_right (Or.imp_left fun mine => wider mine)
  kept := grown.kept
  tables := grown.tables
  mem := grown.mem

theorem trans (first : Grown s s' d held) (second : Grown s' s'' d more) : Grown s s'' d (held ∪ more) where
  free := by
    obtain ⟨used,list⟩ := first.free
    obtain ⟨used',list'⟩ := second.free
    exact ⟨used ++ used',by rw [list,list',List.append_assoc]⟩
  used f inside := by
    rcases first.used f inside with left | mine | ⟨i,small,none,there⟩
    · rcases second.used f left with left | mine | ⟨i,small,none,there⟩
      · exact .inl left
      · exact .inr (.inl (.inr mine))
      · exact .inr (.inr ⟨i,small,first.missing small none,there⟩)
    · exact .inr (.inl (.inl mine))
    · exact .inr (.inr ⟨i,small,none,second.kept i small f there⟩)
  kept i small t there := second.kept i small t (first.kept i small t there)
  tables i small t there := by
    rcases second.tables i small t there with old | new
    · exact first.tables i small t old
    · exact .inr (first.subset new)
  mem g taken outside := by
    have outside' : ¬InTables s'.mem d g := by
      intro inside
      rcases first.inTables inside with old | new
      · exact outside old
      · exact taken new
    rw [second.mem g (fun inside => taken (first.subset inside)) outside',first.mem g taken outside]

theorem take (sep : Separate k s d others) (head : s.free = f :: rest) (list : s'.free = rest)
    (same : ∀ g, g ≠ f → s'.mem g = s.mem g) : Grown s s' d {f} := by
  have first : f ∈ s.free := by
    rw [head]
    exact List.mem_cons_self
  have dir : s'.mem d = s.mem d := same d fun here => sep.dir_free (here ▸ first)
  refine ⟨⟨[f],by rw [head,list]; rfl⟩,?_,?_,?_,?_⟩
  · intro g inside
    rw [head] at inside
    rcases List.mem_cons.mp inside with here | there
    · exact .inr (.inl here)
    · exact .inl (list ▸ there)
  · intro i _ t there
    rw [tableAt_congr dir]
    exact there
  · intro i _ t there
    rw [tableAt_congr dir] at there
    exact .inl there
  · intro g taken _
    exact same g fun here => taken (here ▸ first)

theorem store (sep : Separate k s d others) (there : tableAt s.mem d (n / 1024) = some t) (inside : n < 1048576) (w : UInt32) :
    Grown s {s with mem := stored s.mem t n w} d ∅ := by
  refine ⟨⟨[],rfl⟩,fun _ inside => .inl inside,?_,?_,?_⟩
  · intro i _ t' old
    rw [sep.tableAt_stored there inside]
    exact old
  · intro i _ t' new
    rw [sep.tableAt_stored there inside] at new
    exact .inl new
  · intro g _ outside
    exact stored_of_ne fun same => outside (.inr ⟨n / 1024,by omega,same ▸ there⟩)

theorem few (grown : Grown s s' d held) (empty : s'.free = []) (nodup : s.free.Nodup) (some : Finset UInt32) (inside : ∀ f ∈ held, f ∈ some) :
    s.free.length ≤ 1024 + some.card := by
  have covered : s.free.toFinset ⊆ (Finset.range 1024).image (fun i => (tableAt s'.mem d i).getD 0) ∪ some := by
    intro f member
    rw [List.mem_toFinset] at member
    rcases grown.used f member with left | mine | ⟨i,small,_,there⟩
    · rw [empty] at left
      exact absurd left List.not_mem_nil
    · exact Finset.mem_union_right _ (inside f mine)
    · refine Finset.mem_union_left _ (Finset.mem_image.mpr ⟨i,Finset.mem_range.mpr small,?_⟩)
      rw [there]
      rfl
  have tables : ((Finset.range 1024).image fun i => (tableAt s'.mem d i).getD 0).card ≤ 1024 := by
    refine Finset.card_image_le.trans ?_
    rw [Finset.card_range]
  calc s.free.length = s.free.toFinset.card := (List.toFinset_card_of_nodup nodup).symm
    _ ≤ _ := (Finset.card_le_card covered).trans (Finset.card_union_le _ _)
    _ ≤ 1024 + some.card := Nat.add_le_add_right tables _

end Grown

private theorem word_pdx : word d (pdx va).toNat s = .ok (pde s.mem d (va.toNat / 4096 / 1024),s) := by
  rw [toNat_pdx]
  rfl

private theorem not_present {m : Memory} {i : Nat} (missing : tableAt m d i = none) : ¬Present (pde m d i) := by
  intro present
  rw [tableAt,if_pos present] at missing
  cases missing

theorem walk_present (there : tableAt s.mem d (va.toNat / 4096 / 1024) = some t) (alloc : Bool) :
    walkpgdir d va alloc s = .ok (some ⟨t,va.toNat / 4096 % 1024⟩,s) := by
  obtain ⟨entry,address⟩ := Option.ite_none_right_eq_some.mp there
  rw [walkpgdir,bind_ok word_pdx,if_pos entry,Option.some.inj address,toNat_ptx]
  rfl

theorem walk_missing (missing : tableAt s.mem d (va.toNat / 4096 / 1024) = none) : walkpgdir d va false s = .ok (none,s) := by
  rw [walkpgdir,bind_ok word_pdx,if_neg (not_present missing)]
  rfl

theorem walk_full (missing : tableAt s.mem d (va.toNat / 4096 / 1024) = none) (empty : s.free = []) :
    walkpgdir d va true s = .ok (none,s) := by
  have none : kalloc s = .ok (none,s) := by rw [kalloc,empty]
  rw [walkpgdir,bind_ok word_pdx,if_neg (not_present missing),Bool.not_true,if_neg (by decide),bind_ok none]
  rfl

theorem walk_new (missing : tableAt s.mem d (va.toNat / 4096 / 1024) = none) (head : s.free = f :: rest) :
    walkpgdir d va true s =
      .ok (some ⟨f,va.toNat / 4096 % 1024⟩,⟨withTable s.mem d (va.toNat / 4096 / 1024) f,rest⟩) := by
  have one : kalloc s = .ok (some f,{s with free := rest}) := by rw [kalloc,head]
  rw [walkpgdir,bind_ok word_pdx,if_neg (not_present missing),Bool.not_true,if_neg (by decide),bind_ok one,toNat_pdx,toNat_ptx]
  rfl

/-- The pages that a walk takes for the table of index `i`. -/
def tableCost (m : Memory) (d : UInt32) (i : Nat) : Nat := if tableAt m d i = none then 1 else 0

theorem walk_alloc_meets (sep : Separate k s d others) (va : UInt32) :
    Meets (walkpgdir d va true) s
      (fun r s' => r = none ∧ s' = s ∧ s.free = [] ∧ tableAt s.mem d (va.toNat / 4096 / 1024) = none ∨
        ∃ t, r = some ⟨t,va.toNat / 4096 % 1024⟩ ∧ tableAt s'.mem d (va.toNat / 4096 / 1024) = some t ∧ Separate k s' d others ∧
          Grown s s' d ∅ ∧ (∀ n < 1048576, pte s'.mem d n = pte s.mem d n) ∧
          (∀ i, i ≠ va.toNat / 4096 / 1024 → tableAt s'.mem d i = tableAt s.mem d i) ∧
          s.free.length = s'.free.length + tableCost s.mem d (va.toNat / 4096 / 1024)) fun _ => False := by
  have bound := va.toNat_lt
  rw [tableCost]
  cases there : tableAt s.mem d (va.toNat / 4096 / 1024) with
  | some t =>
    refine .of_ok (walk_present there true) (.inr ⟨t,rfl,there,sep,.refl s d,fun _ _ => rfl,fun _ _ => rfl,?_⟩)
    rw [if_neg (Option.some_ne_none t)]
    rfl
  | none =>
    rw [if_pos rfl]
    cases list : s.free with
    | nil => exact .of_ok (walk_full there list) (.inl ⟨rfl,rfl,rfl,rfl⟩)
    | cons f rest =>
      have first : f ∈ s.free := by
        rw [list]
        exact List.mem_cons_self
      have frame := sep.freeFrame f first
      have outside : ¬InTables s.mem d f := fun inside => sep.inTables_free inside first
      have other : f ≠ d := fun same => outside (.inl same)
      have small : va.toNat / 4096 / 1024 < 1024 := by omega
      refine .of_ok (walk_new there list) (.inr ⟨f,rfl,?_,?_,?_,?_,?_,List.length_cons⟩)
      · rw [tableAt_withTable other frame.aligned small,if_pos rfl]
      · exact (sep.take list).withTable frame (sep.freeOwn f first) small there
      · refine ⟨⟨[f],list⟩,?_,?_,?_,?_⟩
        · intro g inside
          rw [list] at inside
          rcases List.mem_cons.mp inside with here | rest
          · refine .inr (.inr ⟨_,small,there,?_⟩)
            rw [tableAt_withTable other frame.aligned small,if_pos rfl,here]
          · exact .inl rest
        · intro i _ t old
          rw [tableAt_withTable other frame.aligned small,if_neg (fun same => by rw [same,there] at old; cases old)]
          exact old
        · intro i _ t new
          rw [tableAt_withTable other frame.aligned small] at new
          by_cases here : i = va.toNat / 4096 / 1024
          · rw [if_pos here] at new
            exact .inr (Option.some.inj new ▸ first)
          · rw [if_neg here] at new
            exact .inl new
        · intro g taken notTable
          exact withTable_of_ne (fun same => taken (same ▸ first)) fun same => notTable (.inl same)
      · intro n inside
        exact pte_withTable other frame.aligned small there outside (fun i low => sep.table_ne_dir low) inside
      · intro i elsewhere
        rw [tableAt_withTable other frame.aligned small,if_neg elsewhere]

theorem mapPage_meets {held : Set UInt32} {last perm pa : UInt32} (sep : Separate k s d held) (fuel : Nat) (va : UInt32)
    (clear : ¬Present (pte s.mem d (va.toNat / 4096))) {post : Int → Machine → Prop} {fail : Fault → Prop}
    (full : s.free = [] → tableAt s.mem d (va.toNat / 4096 / 1024) = none → post (-1) s)
    (next : ∀ t s', tableAt s'.mem d (va.toNat / 4096 / 1024) = some t → Separate k s' d held → Grown s s' d ∅ →
      (∀ n < 1048576, pte s'.mem d n = pte s.mem d n) →
      (∀ i, i ≠ va.toNat / 4096 / 1024 → tableAt s'.mem d i = tableAt s.mem d i) →
      s.free.length = s'.free.length + tableCost s.mem d (va.toNat / 4096 / 1024) →
      Meets (if va = last then pure 0 else mapLoop d last perm fuel (va + pgSize) (pa + pgSize))
        {s' with mem := stored s'.mem t (va.toNat / 4096) (pa ||| perm ||| pteP)} post fail) :
    Meets (mapLoop d last perm (fuel + 1) va pa) s post fail := by
  have bound := va.toNat_lt
  rw [mapLoop]
  have walk : Meets (walkpgdir d va true) s _ fail := (walk_alloc_meets sep va).excuse fun _ never => never.elim
  refine walk.bind ?_
  intro r s' after
  rcases after with ⟨none,same,empty,missing⟩ | ⟨t,found,there,sep',grown,entries,elsewhere,count⟩
  · rw [none,same]
    exact .pure_intro (full empty missing)
  · rw [found]
    have read : word t (va.toNat / 4096 % 1024) s' = .ok (pte s.mem d (va.toNat / 4096),s') := by
      rw [← entries _ (by omega),pte_table there]
      rfl
    refine .step read ?_
    rw [if_neg clear]
    exact .step rfl (next t s' there sep' grown entries elsewhere count)

theorem mappages_user (sep : Separate k s d (insert f others)) (frame : k.Frame f) (held : f ∉ others) (page : va.toNat = 4096 * n)
    (low : n < 524288) (clear : ¬Present (pte s.mem d n)) {perm : UInt32} (flags : perm.toNat < 4096) :
    Meets (mappages d va pgSize f perm) s
      (fun r s' => r = -1 ∧ s' = s ∧ s.free = [] ∧ tableAt s.mem d (n / 1024) = none ∨
        r = 0 ∧ Separate k s' d others ∧ Grown s s' d ∅ ∧
          (∀ n' < 1048576, pte s'.mem d n' = if n' = n then f ||| perm ||| pteP else pte s.mem d n') ∧
          (∀ i, i ≠ n / 1024 → tableAt s'.mem d i = tableAt s.mem d i) ∧
          s.free.length = s'.free.length + tableCost s.mem d (n / 1024)) fun _ => False := by
  have first : pgRoundDown va = va := by
    apply UInt32.toNat_inj.mp
    rw [toNat_pgRoundDown]
    omega
  have last : pgRoundDown (va + pgSize - 1) = va := by
    have size : pgSize.toNat = 4096 := rfl
    have one : (1 : UInt32).toNat = 1 := rfl
    apply UInt32.toNat_inj.mp
    rw [toNat_pgRoundDown,UInt32.toNat_sub,UInt32.toNat_add,size,one]
    omega
  have number : va.toNat / 4096 = n := by omega
  have rounds : (va - va).toNat / 4096 = 0 := by simp
  rw [mappages,first,last,rounds]
  refine mapPage_meets sep 0 va (number ▸ clear) (fun empty missing => .inl ⟨rfl,rfl,empty,number ▸ missing⟩) ?_
  intro t s' there sep' grown entries elsewhere count
  rw [if_pos rfl]
  rw [number] at there elsewhere count ⊢
  refine .pure_intro (.inr ⟨rfl,sep'.map frame held there (by omega) flags,(grown.trans (.store sep' there (by omega) _)).widen (by simp),?_,?_,count⟩)
  · intro n' inside
    rw [sep'.pte_stored there (by omega) inside,entries n' inside]
  · intro i other
    rw [sep'.tableAt_stored there (by omega),elsewhere i other]

theorem kfree_run (frame : k.Frame f) : ∃ s', kfree k f s = .ok ((),s') ∧ s'.free = f :: s.free ∧ ∀ g, g ≠ f → s'.mem g = s.mem g := by
  have fine : ¬(f.toNat % 4096 ≠ 0 ∨ p2v f < k.kend ∨ physTop ≤ f) := by
    rintro (unaligned | early | late)
    · exact unaligned frame.aligned
    · exact frame.behind early
    · exact absurd frame.below (UInt32.not_lt.mpr late)
  refine ⟨_,if_neg fine,rfl,?_⟩
  intro g other
  exact update_of_ne other _ _

end Xv6Ext2.Vm
