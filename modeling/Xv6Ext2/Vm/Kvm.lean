import Xv6Ext2.Vm.Freevm

/-! `setupkvm` maps the four ranges of `kmap`, none of them for user code, or gives back what it took. -/
namespace Xv6Ext2.Vm
open Lib Bio Function

variable {k : Linked} {s s' s'' : Machine} {d f : UInt32} {others hand hand' : Set UInt32}

theorem user_iff (w : UInt32) : User w ↔ w.toNat / 4 % 2 = 1 := by
  have masked : (w &&& pteU).toNat = w.toNat / 4 % 2 * 4 := by
    have four : pteU.toNat = 2 ^ 2 := rfl
    rw [UInt32.toNat_and,four,Nat.and_two_pow]
    cases bit : w.toNat.testBit 2
    · rw [Nat.testBit_eq_decide_div_mod_eq,decide_eq_false_iff_not] at bit
      rw [Bool.toNat_false]
      omega
    · rw [Nat.testBit_eq_decide_div_mod_eq,decide_eq_true_eq] at bit
      rw [Bool.toNat_true]
      omega
  rw [User,ne_eq,← UInt32.toNat_inj,masked]
  have zero : (0 : UInt32).toNat = 0 := rfl
  rw [zero]
  omega

theorem mapLoop_kernel {last perm : UInt32} {l : Nat} (sep : Separate k s d others) (fuel : Nat) (a pa : UInt32) (n : Nat)
    (page : a.toNat = 4096 * n) (lastPage : last.toNat = 4096 * l) (below : n ≤ l) (rounds : l < n + fuel) (high : 524288 ≤ n)
    (clear : ∀ p, n ≤ p → p ≤ l → ¬Present (pte s.mem d p)) :
    Meets (mapLoop d last perm fuel a pa) s
      (fun r s' => Separate k s' d others ∧ Grown s s' d ∅ ∧ (∀ p < 524288, pte s'.mem d p = pte s.mem d p) ∧
        (r = -1 ∧ s'.free = [] ∨ r = 0 ∧ ∀ p < 1048576, pte s'.mem d p =
          if n ≤ p ∧ p ≤ l then (pa + UInt32.ofNat (4096 * (p - n))) ||| perm ||| pteP else pte s.mem d p)) fun _ => False := by
  have bound := last.toNat_lt
  induction fuel generalizing s a pa n with
  | zero => omega
  | succ fuel ih =>
    have number : a.toNat / 4096 = n := by omega
    refine mapPage_meets sep fuel a (by rw [number]; exact clear n le_rfl below) (fun empty _ => ⟨sep,.refl s d,fun _ _ => rfl,.inl ⟨rfl,empty⟩⟩) ?_
    intro t s₁ there sep₁ grown entries _ _
    rw [number] at there ⊢
    have sep₂ : Separate k {s₁ with mem := stored s₁.mem t n (pa ||| perm ||| pteP)} d others :=
      sep₁.mapKernel there (by omega) high
    have grown₂ : Grown s {s₁ with mem := stored s₁.mem t n (pa ||| perm ||| pteP)} d ∅ :=
      (grown.trans (.store sep₁ there (by omega) _)).widen (by simp)
    have set (p : Nat) (inside : p < 1048576) :
        pte (stored s₁.mem t n (pa ||| perm ||| pteP)) d p = if p = n then pa ||| perm ||| pteP else pte s.mem d p := by
      rw [sep₁.pte_stored there (by omega) inside,entries p inside]
    have user (p : Nat) (low : p < 524288) : pte (stored s₁.mem t n (pa ||| perm ||| pteP)) d p = pte s.mem d p := by
      rw [set p (by omega),if_neg (by omega)]
    by_cases done : a = last
    · rw [if_pos done]
      have same : n = l := by
        rw [done] at page
        omega
      refine .pure_intro ⟨sep₂,grown₂,user,.inr ⟨rfl,?_⟩⟩
      intro p inside
      rw [set p inside]
      by_cases here : p = n
      · have offset : pa + UInt32.ofNat (4096 * (p - n)) = pa := by
          rw [here,Nat.sub_self]
          exact UInt32.add_zero pa
        rw [if_pos here,if_pos (by omega),offset]
      · rw [if_neg here,if_neg (by omega)]
    · rw [if_neg done]
      have other : n ≠ l := by
        intro same
        exact done (UInt32.toNat_inj.mp (by omega))
      have next : (a + pgSize).toNat = 4096 * (n + 1) := by
        rw [toNat_next (by omega)]
        omega
      have clear' (p : Nat) (low : n + 1 ≤ p) (top : p ≤ l) : ¬Present (pte (stored s₁.mem t n (pa ||| perm ||| pteP)) d p) := by
        rw [set p (by omega),if_neg (by omega)]
        exact clear p (by omega) top
      refine (ih sep₂ (a + pgSize) (pa + pgSize) (n + 1) next (by omega) (by omega) (by omega) clear').mono ?_ fun _ never => never
      intro r s₃ after
      obtain ⟨sep₃,grown₃,user₃,result⟩ := after
      refine ⟨sep₃,(grown₂.trans grown₃).widen (by simp),fun p low => (user₃ p low).trans (user p low),
        result.imp_right fun success => ⟨success.1,?_⟩⟩
      intro p inside
      rw [success.2 p inside]
      by_cases here : p = n
      · have offset : pa + UInt32.ofNat (4096 * (p - n)) = pa := by
          rw [here,Nat.sub_self]
          exact UInt32.add_zero pa
        rw [if_neg (by omega),if_pos (by omega),offset]
        exact (set p inside).trans (if_pos here)
      · by_cases range : n + 1 ≤ p ∧ p ≤ l
        · have offset : pa + pgSize + UInt32.ofNat (4096 * (p - (n + 1))) = pa + UInt32.ofNat (4096 * (p - n)) := by
            have size : pgSize = UInt32.ofNat 4096 := rfl
            have sum : 4096 * (p - n) = 4096 + 4096 * (p - (n + 1)) := by omega
            rw [UInt32.add_assoc,size,sum,UInt32.ofNat_add]
          rw [if_pos range,if_pos (by omega),offset]
        · rw [if_neg range,if_neg (by omega)]
          exact (set p inside).trans (if_neg here)

/-- The first and the last page of a range of `kmap`. -/
def Kmap.first (e : Kmap) : Nat := e.virt.toNat / 4096

def Kmap.last (e : Kmap) : Nat := (e.virt + (e.physEnd - e.physStart) - 1).toNat / 4096

def Kmap.Covers (e : Kmap) (n : Nat) : Prop := e.first ≤ n ∧ n ≤ e.last

theorem Kmap.Covers.small {e : Kmap} {n : Nat} (covers : e.Covers n) : n < 1048576 := by
  have below := covers.2
  have bound := (e.virt + (e.physEnd - e.physStart) - 1).toNat_lt
  rw [Kmap.last] at below
  omega

def Kmap.entry (e : Kmap) (n : Nat) : UInt32 := (e.physStart + UInt32.ofNat (4096 * (n - e.first))) ||| e.perm ||| pteP

structure Kmap.Good (e : Kmap) : Prop where
  aligned : e.virt.toNat % 4096 = 0
  phys : e.physStart.toNat % 4096 = 0
  kernel : 524288 ≤ e.first
  order : e.first ≤ e.last
  perm : e.perm = 0 ∨ e.perm = pteW

theorem mappages_kernel (sep : Separate k s d others) (e : Kmap) (good : e.Good) (clear : ∀ p, e.Covers p → ¬Present (pte s.mem d p)) :
    Meets (mappages d e.virt (e.physEnd - e.physStart) e.physStart e.perm) s
      (fun r s' => Separate k s' d others ∧ Grown s s' d ∅ ∧ (∀ p < 524288, pte s'.mem d p = pte s.mem d p) ∧
        (r = -1 ∧ s'.free = [] ∨ r = 0 ∧ (∀ p < 1048576, ¬e.Covers p → pte s'.mem d p = pte s.mem d p) ∧
          ∀ p < 1048576, e.Covers p → pte s'.mem d p = e.entry p)) fun _ => False := by
  have aligned := good.aligned
  have order := good.order
  have first : (pgRoundDown e.virt).toNat = 4096 * e.first := by
    rw [toNat_pgRoundDown,Kmap.first,Nat.mul_comm]
  have last : (pgRoundDown (e.virt + (e.physEnd - e.physStart) - 1)).toNat = 4096 * e.last := by
    rw [toNat_pgRoundDown,Kmap.last,Nat.mul_comm]
  have rounds : (pgRoundDown (e.virt + (e.physEnd - e.physStart) - 1) - pgRoundDown e.virt).toNat / 4096 = e.last - e.first := by
    have bound := (pgRoundDown (e.virt + (e.physEnd - e.physStart) - 1)).toNat_lt
    rw [UInt32.toNat_sub,first,last]
    omega
  rw [mappages,rounds]
  refine (mapLoop_kernel sep _ _ _ e.first first last order (by omega) good.kernel fun p low top => clear p ⟨low,top⟩).mono ?_
    fun _ never => never
  intro r s' after
  obtain ⟨sep',grown,user,result⟩ := after
  refine ⟨sep',grown,user,result.imp_right fun success => ⟨success.1,?_,?_⟩⟩
  · intro p inside outside
    exact (success.2 p inside).trans (if_neg outside)
  · intro p inside covers
    exact (success.2 p inside).trans (if_pos covers)

theorem kmapLoop_meets {s₀ : Machine} (list : List Kmap) (start : s₀.free.Nodup) (origin : Grown s₀ s d ∅) (sep : Separate k s d others) (good : ∀ e ∈ list, e.Good)
    (apart : list.Pairwise fun e e' => ∀ p, e.Covers p → ¬e'.Covers p) (clear : ∀ e ∈ list, ∀ p, e.Covers p → ¬Present (pte s.mem d p)) :
    Meets (kmapLoop k d list) s
      (fun r s' => r = some d ∧ Separate k s' d others ∧ Conserves s s' d ∅ ∅ ∧
          (∀ p < 1048576, (∀ e ∈ list, ¬e.Covers p) → pte s'.mem d p = pte s.mem d p) ∧
          (∀ e ∈ list, ∀ p < 1048576, e.Covers p → pte s'.mem d p = e.entry p) ∨
        r = none ∧ Pool k s' others ∧ Freed s s' d ∧ s₀.free.length ≤ 1024) fun _ => False := by
  induction list generalizing s with
  | nil =>
    refine .pure_intro (.inl ⟨rfl,sep,.refl s d ∅,fun _ _ _ => rfl,?_⟩)
    intro e never
    exact absurd never List.not_mem_nil
  | cons e list ih =>
    obtain ⟨first,rest⟩ := List.pairwise_cons.mp apart
    rw [kmapLoop]
    refine (mappages_kernel sep e (good e List.mem_cons_self) (clear e List.mem_cons_self)).bind ?_
    intro r s₁ after
    obtain ⟨sep₁,grown,user,result⟩ := after
    have conserves : Conserves s s₁ d ∅ ∅ := grown.conserves_kernel user
    have origin₁ : Grown s₀ s₁ d ∅ := (origin.trans grown).widen (by simp)
    rcases result with ⟨failed,empty⟩ | ⟨done,old,new⟩
    · rw [failed,if_pos (by decide)]
      refine (freevm_meets sep₁).bind ?_
      intro _ s₂ after
      obtain ⟨pool,freed⟩ := after
      exact .pure_intro (.inr ⟨rfl,pool,conserves.freed freed,origin₁.few empty start ∅ fun _ never => never.elim⟩)
    · rw [done,if_neg (by decide)]
      have clear' (e' : Kmap) (inside : e' ∈ list) (p : Nat) (covers : e'.Covers p) : ¬Present (pte s₁.mem d p) := by
        rw [old p covers.small fun also => first e' inside p also covers]
        exact clear e' (List.mem_cons_of_mem _ inside) p covers
      refine (ih origin₁ sep₁ (fun e' inside => good e' (List.mem_cons_of_mem _ inside)) rest clear').mono ?_ fun _ never => never
      intro r s₂ after
      rcases after with ⟨is,sep₂,conserves₂,old₂,new₂⟩ | ⟨is,pool,freed,few⟩
      · refine .inl ⟨is,sep₂,conserves.trans conserves₂,?_,?_⟩
        · intro p inside outside
          rw [old₂ p inside fun e' member => outside e' (List.mem_cons_of_mem _ member)]
          exact old p inside (outside e List.mem_cons_self)
        · intro e' member p inside covers
          rcases List.mem_cons.mp member with here | later
          · rw [old₂ p inside fun e'' member' => first e'' member' p (here ▸ covers)]
            exact here ▸ new p inside (here ▸ covers)
          · exact new₂ e' later p inside covers
      · exact .inr ⟨is,pool,conserves.freed freed,few⟩

theorem Linked.data_bounds (k : Linked) : 2148532224 < k.data.toNat ∧ k.data.toNat < 2382364672 := by
  have base : kernLink.toNat = 2148532224 := rfl
  have top : (p2v physTop).toNat = 2382364672 := rfl
  have text := UInt32.lt_iff_toNat_lt.mp k.text
  have after := UInt32.le_iff_toNat_le.mp k.after
  have inside := UInt32.lt_iff_toNat_lt.mp k.inside
  omega

theorem Linked.toNat_phys (k : Linked) : (v2p k.data).toNat = k.data.toNat - 2147483648 := by
  obtain ⟨text,top⟩ := k.data_bounds
  have base : kernBase.toNat = 2147483648 := rfl
  rw [v2p,UInt32.toNat_sub,base]
  omega

theorem kmap_pages (k : Linked) : (kmap k).map (fun e => (e.first,e.last)) =
    [(524288,524543),(524544,k.data.toNat / 4096 - 1),(k.data.toNat / 4096,581631),(1040384,1048575)] := by
  obtain ⟨text,top⟩ := k.data_bounds
  have aligned := k.aligned
  have phys := k.toNat_phys
  have one : (1 : UInt32).toNat = 1 := rfl
  have lastText : (kernLink + (v2p k.data - v2p kernLink) - 1).toNat = k.data.toNat - 1 := by
    have link : kernLink.toNat = 2148532224 := rfl
    have start : (v2p kernLink).toNat = 1048576 := rfl
    rw [UInt32.toNat_sub,UInt32.toNat_add,UInt32.toNat_sub,phys,link,start,one]
    omega
  have lastData : (k.data + (physTop - v2p k.data) - 1).toNat = 2382364671 := by
    have stop : physTop.toNat = 234881024 := rfl
    rw [UInt32.toNat_sub,UInt32.toNat_add,UInt32.toNat_sub,phys,stop,one]
    omega
  have lastPage : (k.data.toNat - 1) / 4096 = k.data.toNat / 4096 - 1 := by omega
  simp only [kmap,List.map_cons,List.map_nil,Kmap.first,Kmap.last,lastText,lastData,lastPage]
  rfl

theorem kmap_apart (k : Linked) : (kmap k).Pairwise fun e e' => ∀ p, e.Covers p → ¬e'.Covers p := by
  obtain ⟨text,top⟩ := k.data_bounds
  have apart : ((kmap k).map fun e => (e.first,e.last)).Pairwise fun r r' => ∀ p, r.1 ≤ p ∧ p ≤ r.2 → ¬(r'.1 ≤ p ∧ p ≤ r'.2) := by
    rw [kmap_pages]
    simp only [List.pairwise_cons,List.mem_cons,List.not_mem_nil,or_false,forall_eq_or_imp,forall_eq,IsEmpty.forall_iff,implies_true,
      List.Pairwise.nil,and_true]
    refine ⟨⟨?_,?_,?_⟩,⟨?_,?_⟩,?_⟩
    all_goals
      intro p
      omega
  exact List.pairwise_map.mp apart

theorem kmap_good (k : Linked) : ∀ e ∈ kmap k, e.Good := by
  obtain ⟨text,top⟩ := k.data_bounds
  have aligned := k.aligned
  have phys := k.toNat_phys
  have fields : ∀ e ∈ kmap k, e.virt.toNat % 4096 = 0 ∧ e.physStart.toNat % 4096 = 0 ∧ (e.perm = 0 ∨ e.perm = pteW) := by
    have starts : (v2p k.data).toNat % 4096 = 0 := by omega
    simp only [kmap,List.mem_cons,List.not_mem_nil,or_false,forall_eq_or_imp,forall_eq]
    exact ⟨⟨rfl,rfl,.inr trivial⟩,⟨rfl,rfl,.inl trivial⟩,⟨aligned,starts,.inr trivial⟩,rfl,rfl,.inr trivial⟩
  intro e inside
  obtain ⟨start,physical,perm⟩ := fields e inside
  have range : (e.first,e.last) ∈ (kmap k).map fun e => (e.first,e.last) := List.mem_map_of_mem inside
  rw [kmap_pages] at range
  simp only [List.mem_cons,List.not_mem_nil,or_false,Prod.mk.injEq] at range
  exact ⟨start,physical,by omega,by omega,perm⟩

theorem Kmap.Good.not_user {e : Kmap} (good : e.Good) (n : Nat) : ¬User (e.entry n) := by
  have physical := good.phys
  have page : (e.physStart + UInt32.ofNat (4096 * (n - e.first))).toNat % 4096 = 0 := by
    rw [UInt32.toNat_add,UInt32.toNat_ofNat']
    omega
  rw [user_iff,Kmap.entry]
  rcases good.perm with perm | perm
  · have flags : ((0 : UInt32) ||| pteP).toNat = 1 := rfl
    rw [perm,toNat_entry page (by decide),flags]
    omega
  · have flags : (pteW ||| pteP).toNat = 3 := rfl
    rw [perm,toNat_entry page (by decide),flags]
    omega

structure KernelPart (k : Linked) (m : Memory) (d : UInt32) : Prop where
  mapped : ∀ e ∈ kmap k, ∀ n < 1048576, e.Covers n → pte m d n = e.entry n
  rest : ∀ n, 524288 ≤ n → n < 1048576 → (∀ e ∈ kmap k, ¬e.Covers n) → ¬Present (pte m d n)

theorem KernelPart.congr {m m' : Memory} (part : KernelPart k m d) (same : ∀ n, 524288 ≤ n → n < 1048576 → pte m' d n = pte m d n) :
    KernelPart k m' d := by
  refine ⟨?_,?_⟩
  · intro e member n inside covers
    have above := (kmap_good k e member).kernel
    have start := covers.1
    rw [same n (by omega) inside]
    exact part.mapped e member n inside covers
  · intro n above inside outside
    rw [same n above inside]
    exact part.rest n above inside outside

/-- The pages that were free are free or in use by the directory, and no others were written. -/
structure Drawn (s s' : Machine) (d : UInt32) (hand : Set UInt32) : Prop where
  has : ∀ f, Has s' d hand f ↔ f ∈ s.free
  mem : ∀ g, g ∉ s.free → s'.mem g = s.mem g

structure Same (s s' : Machine) : Prop where
  free : ∀ f, f ∈ s'.free ↔ f ∈ s.free
  mem : ∀ g, g ∉ s.free → s'.mem g = s.mem g

theorem Same.refl (s : Machine) : Same s s := ⟨fun _ => Iff.rfl,fun _ _ => rfl⟩

theorem Drawn.trans (drawn : Drawn s s' d hand) (conserves : Conserves s' s'' d hand hand') : Drawn s s'' d hand' where
  has f := (conserves.has f).trans (drawn.has f)
  mem g outside := (conserves.mem g fun inside => outside ((drawn.has g).mp inside)).trans (drawn.mem g outside)

theorem Drawn.freed (drawn : Drawn s s' d ∅) (freed : Freed s' s'' d) : Same s s'' where
  free f := (freed.free f).trans (drawn.has f)
  mem g outside := (freed.mem g fun inside => outside ((drawn.has g).mp inside)).trans (drawn.mem g outside)

theorem setupkvm_meets (pool : Pool k s others) :
    Meets (setupkvm k) s
      (fun r s' => r = none ∧ Pool k s' others ∧ Same s s' ∧ s.free.length ≤ 1025 ∨
        ∃ d, r = some d ∧ Separate k s' d others ∧ KernelPart k s'.mem d ∧ (∀ n < 524288, ¬Present (pte s'.mem d n)) ∧
          Drawn s s' d ∅) fun _ => False := by
  rw [setupkvm]
  cases list : s.free with
  | nil =>
    have full : kalloc s = .ok (none,s) := by rw [kalloc,list]
    exact .step full (.pure_intro (.inl ⟨rfl,pool,⟨fun _ => by rw [list],fun _ _ => rfl⟩,by simp⟩))
  | cons d rest =>
    have head : kalloc s = .ok (some d,{s with free := rest}) := by rw [kalloc,list]
    refine .step head (.step rfl ?_)
    rw [if_neg (by decide)]
    have first : d ∈ s.free := by
      rw [list]
      exact List.mem_cons_self
    have later (f : UInt32) (inside : f ∈ rest) : f ∈ s.free := by
      rw [list]
      exact List.mem_cons_of_mem _ inside
    have nodup := pool.nodup
    rw [list] at nodup
    obtain ⟨away,nodup⟩ := List.nodup_cons.mp nodup
    generalize start : Machine.mk (update s.mem d (Bytes.zero 4096)) rest = s₁
    have blank : s₁.mem d = Bytes.zero 4096 := by
      rw [← start]
      exact update_self _ _ _
    have free : s₁.free = rest := by rw [← start]
    have sep : Separate k s₁ d others := by
      rw [← free] at away nodup later
      exact separate_blank blank (pool.frame d first) away (pool.own d first) nodup (fun f inside => pool.frame f (later f inside))
        fun f inside => pool.own f (later f inside)
    have drawn : Drawn s s₁ d ∅ := by
      refine ⟨?_,?_⟩
      · intro f
        rw [list,List.mem_cons,Has,free]
        constructor
        · rintro (inside | never | ⟨r,owned⟩)
          · exact .inr inside
          · exact never.elim
          · exact .inl (owns_blank blank owned).2
        · rintro (here | inside)
          · exact .inr (.inr ⟨.dir,here⟩)
          · exact .inl inside
      · intro g outside
        have other : g ≠ d := fun here => outside (here ▸ first)
        rw [← start]
        exact update_of_ne other _ _
    have empty (n : Nat) : ¬Present (pte s₁.mem d n) := by
      rw [pte_missing (tableAt_blank _ _ blank _)]
      exact not_present_zero
    refine (kmapLoop_meets (kmap k) sep.nodup (.refl s₁ d) sep (kmap_good k) (kmap_apart k) fun _ _ p _ => empty p).mono ?_ fun _ never => never
    intro r s₂ after
    rcases after with ⟨is,sep₂,conserves,old,new⟩ | ⟨is,pool₂,freed,few⟩
    · refine .inr ⟨d,is,sep₂,⟨new,?_⟩,?_,drawn.trans conserves⟩
      · intro n _ inside outside
        rw [old n inside outside]
        exact empty n
      · intro n low
        have outside (e : Kmap) (member : e ∈ kmap k) : ¬e.Covers n := by
          intro covers
          have above := (kmap_good k e member).kernel
          have start := covers.1
          omega
        rw [old n (by omega) outside]
        exact empty n
    · refine .inl ⟨is,pool₂,drawn.freed freed,?_⟩
      rw [free] at few
      rw [List.length_cons]
      omega

end Xv6Ext2.Vm
