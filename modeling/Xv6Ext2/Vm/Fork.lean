import Xv6Ext2.Vm.Kvm
import Xv6Ext2.Vm.Grow

/-! `copyuvm` makes a child's address space: the user pages of the parent on pages of its own, or nothing. -/
namespace Xv6Ext2.Vm
open Lib Bio Function

variable {k : Linked} {s s' s'' : Machine} {p d f : UInt32} {others : Set UInt32} {n : Nat}

/-- The user pages of `p` before page `n` as they were in `s`, on pages of directory `d`. -/
structure Copies (s s' : Machine) (p d : UInt32) (n : Nat) : Prop where
  exact : ∀ n' < 524288, Present (pte s'.mem d n') ↔ n' < n
  flags : ∀ n' < n, pteFlags (pte s'.mem d n') = pteFlags (pte s.mem p n')
  bytes : ∀ n' < n, s'.mem (pteAddr (pte s'.mem d n')) = s.mem (pteAddr (pte s.mem p n'))

def InUse (s : Machine) (p : UInt32) : Prop := ∀ r f, Owns s.mem p r f → f ∉ s.free

theorem InUse.tables (used : InUse s p) (same : ∀ g, g ∉ s.free → s'.mem g = s.mem g) {g : UInt32} (inside : InTables s.mem p g) :
    s'.mem g = s.mem g := by
  obtain ⟨r,_,owned⟩ := inside.owned
  exact same g (used r g owned)

theorem Copies.take (copies : Copies s s' p d n) (sep : Separate k s' d others) (low : n ≤ 524288) (free : f ∈ s'.free)
    (same : ∀ g, g ≠ f → s''.mem g = s'.mem g) : Copies s s'' p d n := by
  have kept (g : UInt32) (inside : InTables s'.mem d g) : s''.mem g = s'.mem g :=
    same g fun here => sep.inTables_free inside (here ▸ free)
  have entry (n' : Nat) (inside : n' < 524288) : pte s''.mem d n' = pte s'.mem d n' := pte_congr (by omega) kept
  refine ⟨?_,?_,?_⟩
  · intro n' inside
    rw [entry n' inside]
    exact copies.exact n' inside
  · intro n' below
    rw [entry n' (by omega)]
    exact copies.flags n' below
  · intro n' below
    have owned : Owns s'.mem d (.user n') (pteAddr (pte s'.mem d n')) := ⟨by omega,(copies.exact n' (by omega)).mpr below,rfl⟩
    have other : pteAddr (pte s'.mem d n') ≠ f := fun here => sep.taken _ _ owned (here ▸ free)
    rw [entry n' (by omega),same _ other]
    exact copies.bytes n' below

theorem Copies.map {w : UInt32} (copies : Copies s s' p d n) (low : n < 524288) (sep : Separate k s' d (insert f others)) (frame : k.Frame f)
    (entry : pte s.mem p n = w) (present : Present w) (bytes : s'.mem f = s.mem (pteAddr w)) (grown : Grown s' s'' d ∅)
    (entries : ∀ n' < 1048576, pte s''.mem d n' = if n' = n then f ||| pteFlags w ||| pteP else pte s'.mem d n') :
    Copies s s'' p d (n + 1) := by
  have earlier (n' : Nat) (below : n' < n) : pte s''.mem d n' = pte s'.mem d n' := by
    rw [entries n' (by omega),if_neg (by omega)]
  have here : pte s''.mem d n = f ||| pteFlags w ||| pteP := by
    rw [entries n (by omega),if_pos rfl]
  have small : (pteFlags w).toNat < 4096 := by
    rw [toNat_pteFlags]
    omega
  have outside : ¬InTables s'.mem d f := fun inside => sep.inTables_own inside (Set.mem_insert _ _)
  have away : f ∉ s'.free := fun inside => sep.freeOwn f inside (Set.mem_insert _ _)
  refine ⟨?_,?_,?_⟩
  · intro n' inside
    by_cases last : n' = n
    · rw [last,here]
      exact ⟨fun _ => by omega,fun _ => present_entry _ _⟩
    · rw [entries n' (by omega),if_neg last,copies.exact n' inside]
      omega
  · intro n' below
    by_cases last : n' = n
    · rw [last,here,pteFlags_entry frame.aligned small,pteFlags_present present,entry]
    · rw [earlier n' (by omega)]
      exact copies.flags n' (by omega)
  · intro n' below
    by_cases last : n' = n
    · rw [last,here,pteAddr_entry frame.aligned small,grown.mem f away outside,bytes,entry]
    · have owned : Owns s'.mem d (.user n') (pteAddr (pte s'.mem d n')) :=
        ⟨by omega,(copies.exact n' (by omega)).mpr (by omega),rfl⟩
      rw [earlier n' (by omega),grown.mem _ (sep.taken _ _ owned) (sep.user_apart owned)]
      exact copies.bytes n' (by omega)

theorem Drawn.count (drawn : Drawn s s' d ∅) (nodup : s.free.Nodup) (users : ∀ n' < 524288, Present (pte s'.mem d n') → n' < n) :
    s.free.length ≤ 1025 + n + s'.free.length := by
  have covered : s.free.toFinset ⊆ insert d ((Finset.range 1024).image fun i => (tableAt s'.mem d i).getD 0) ∪
      (Finset.range n).image (fun n => pteAddr (pte s'.mem d n)) ∪ s'.free.toFinset := by
    intro f member
    rw [List.mem_toFinset,← drawn.has f] at member
    rcases member with left | never | ⟨r,owned⟩
    · exact Finset.mem_union_right _ (List.mem_toFinset.mpr left)
    · exact never.elim
    · refine Finset.mem_union_left _ ?_
      cases r with
      | dir => exact Finset.mem_union_left _ (owned ▸ Finset.mem_insert_self _ _)
      | table i =>
        refine Finset.mem_union_left _ (Finset.mem_insert_of_mem (Finset.mem_image.mpr ⟨i,Finset.mem_range.mpr owned.1,?_⟩))
        rw [owned.2]
        rfl
      | user n' =>
        obtain ⟨low,present,is⟩ := owned
        exact Finset.mem_union_right _ (Finset.mem_image.mpr ⟨n',Finset.mem_range.mpr (users n' low present),is.symm⟩)
  have tables : ((Finset.range 1024).image fun i => (tableAt s'.mem d i).getD 0).card ≤ 1024 := by
    refine Finset.card_image_le.trans ?_
    rw [Finset.card_range]
  have insertion := Finset.card_insert_le d ((Finset.range 1024).image fun i => (tableAt s'.mem d i).getD 0)
  have pages : ((Finset.range n).image fun n => pteAddr (pte s'.mem d n)).card ≤ n := by
    refine Finset.card_image_le.trans ?_
    rw [Finset.card_range]
  have own := Finset.card_union_le (insert d ((Finset.range 1024).image fun i => (tableAt s'.mem d i).getD 0))
    ((Finset.range n).image fun n => pteAddr (pte s'.mem d n))
  have both := (Finset.card_le_card covered).trans (Finset.card_union_le _ _)
  have left := List.toFinset_card_le s'.free
  rw [List.toFinset_card_of_nodup nodup] at both
  omega

/-- The parent's tables and pages are not free, so the child's have not changed them. -/
theorem InUse.entry (used : InUse s p) (drawn : Drawn s s' d ∅) {i : UInt32} (page : i.toNat = 4096 * n) (low : n < 524288)
    (here : Present (pte s.mem p n)) :
    s'.mem (pteAddr (pte s.mem p n)) = s.mem (pteAddr (pte s.mem p n)) ∧
      ∃ slot, walkpgdir p i false s' = .ok (some slot,s') ∧ word slot.1 slot.2 s' = .ok (pte s.mem p n,s') := by
  have entry : pte s'.mem p n = pte s.mem p n := pte_congr (by omega) fun g table => used.tables drawn.mem table
  have number : i.toNat / 4096 = n := by omega
  obtain ⟨t,there⟩ := present_table (entry.symm ▸ here : Present (pte s'.mem p n))
  refine ⟨drawn.mem _ (used (.user n) _ ⟨low,here,rfl⟩),⟨t,i.toNat / 4096 % 1024⟩,walk_present (by rw [number]; exact there) false,?_⟩
  rw [← entry,pte_table there,number]
  rfl

theorem copyLoop_meets {sz : UInt32} (used : InUse s p) (low : sz.toNat < 2147483648) (present : ∀ n < pages sz, Present (pte s.mem p n))
    (fuel : Nat) (i : UInt32) (page : i.toNat = 4096 * n) (below : n ≤ pages sz) (enough : pages sz < n + fuel)
    (sep : Separate k s' d others) (kernel : KernelPart k s'.mem d) (drawn : Drawn s s' d ∅) (copies : Copies s s' p d n)
    (nodup : s.free.Nodup) :
    Meets (copyLoop k p d sz fuel i) s'
      (fun r s'' => r = some d ∧ Separate k s'' d others ∧ KernelPart k s''.mem d ∧ Drawn s s'' d ∅ ∧ Copies s s'' p d (pages sz) ∨
        r = none ∧ Pool k s'' others ∧ Same s s'' ∧ s.free.length ≤ 1025 + pages sz) fun _ => False := by
  have bound : pages sz ≤ 524288 := by
    rw [pages]
    omega
  induction fuel generalizing s' i n with
  | zero => omega
  | succ fuel ih =>
    have reach : i < sz ↔ n < pages sz := by
      rw [UInt32.lt_iff_toNat_lt,page,pages]
      omega
    rw [copyLoop]
    by_cases inside : i < sz
    · rw [if_pos inside]
      rw [reach] at inside
      have here := present n inside
      obtain ⟨source,slot,walked,read⟩ := used.entry drawn page (by omega) here
      refine .step walked (.step read ?_)
      rw [if_neg (not_not.mpr here)]
      have count := drawn.count nodup fun n' inside' present' => (copies.exact n' inside').mp present'
      cases list : s'.free with
      | nil =>
        have full : kalloc s' = .ok (none,s') := by rw [kalloc,list]
        rw [list,List.length_nil] at count
        refine .step full ((freevm_meets sep).bind ?_)
        intro _ s'' after
        exact .pure_intro (.inr ⟨rfl,after.1,drawn.freed after.2,by omega⟩)
      | cons f rest =>
        have head : kalloc s' = .ok (some f,{s' with free := rest}) := by rw [kalloc,list]
        have first : f ∈ s'.free := by
          rw [list]
          exact List.mem_cons_self
        have frame := sep.freeFrame f first
        have held := sep.freeOwn f first
        have outside : ¬InTables s'.mem d f := fun inside => sep.inTables_free inside first
        let s₁ : Machine := ⟨update s'.mem f (s'.mem (pteAddr (pte s.mem p n))),rest⟩
        have same (g : UInt32) (other : g ≠ f) : s₁.mem g = s'.mem g := update_of_ne other _ _
        have kept (g : UInt32) (inside : InTables s'.mem d g) : s₁.mem g = s'.mem g := same g fun here => outside (here ▸ inside)
        have sep₁ : Separate k s₁ d (insert f others) := (sep.take list).congr kept rfl
        have drawn₁ : Drawn s s₁ d (insert f ∅) := drawn.trans (.take sep list rfl same)
        have copies₁ : Copies s s₁ p d n := copies.take sep (by omega) first same
        refine .step head (.step (t := s₁) rfl ?_)
        have clear : ¬Present (pte s₁.mem d n) := by
          rw [copies₁.exact n (by omega)]
          omega
        have flags : (pteFlags (pte s.mem p n)).toNat < 4096 := by
          rw [toNat_pteFlags]
          omega
        have mapping : Meets (mappages d i pgSize f (pteFlags (pte s.mem p n))) s₁ _ fun _ => False :=
          mappages_user sep₁ frame held page (by omega) clear flags
        refine mapping.bind ?_
        intro r s₂ after
        rcases after with ⟨failed,same₂,empty,_⟩ | ⟨done,sep₂,mapped,entries,_⟩
        · rw [failed,same₂,if_pos (by decide)]
          have last : rest = [] := empty
          rw [list,last,List.length_singleton] at count
          obtain ⟨s₃,ran,list₃,same₃⟩ := kfree_run (s := s₁) frame
          have outside₁ : ¬InTables s₁.mem d f := fun inside => sep₁.inTables_own inside (Set.mem_insert _ _)
          have drawn₃ : Drawn s s₃ d ∅ := drawn₁.trans (.give outside₁ list₃ same₃)
          refine .step ran ((freevm_meets (sep₁.give frame held same₃ list₃)).bind ?_)
          intro _ s₄ after
          exact .pure_intro (.inr ⟨rfl,after.1,drawn₃.freed after.2,by omega⟩)
        · rw [done,if_neg (by decide)]
          have drawn₂ : Drawn s s₂ d ∅ :=
            drawn₁.trans (mapped.conserves_map (by omega) clear (present_entry _ _) (pteAddr_entry frame.aligned flags) entries)
          have kernel₂ : KernelPart k s₂.mem d := by
            refine kernel.congr ?_
            intro n' above inside'
            rw [entries n' inside',if_neg (by omega),pte_congr inside' kept]
          have bytes : s₁.mem f = s.mem (pteAddr (pte s.mem p n)) := by
            rw [← source]
            exact update_self _ _ _
          have copies₂ := copies₁.map (by omega) sep₁ frame rfl here bytes mapped entries
          refine ih (i + pgSize) ?_ (by omega) (by omega) sep₂ kernel₂ drawn₂ copies₂
          rw [toNat_next (by omega)]
          omega
    · rw [if_neg inside]
      rw [reach] at inside
      have last : n = pages sz := by omega
      exact .pure_intro (.inl ⟨rfl,sep,kernel,drawn,last ▸ copies⟩)

/-- What `copyuvm` gives when it succeeds: directory `d` has the user pages of `p` below `sz`. -/
structure Twin (k : Linked) (s s' : Machine) (p d sz : UInt32) : Prop where
  exact : ∀ n < 524288, Present (pte s'.mem d n) ↔ Present (pte s.mem p n) ∧ 4096 * n < sz.toNat
  flags : ∀ n < 524288, Present (pte s'.mem d n) → pteFlags (pte s'.mem d n) = pteFlags (pte s.mem p n)
  bytes : ∀ n < 524288, Present (pte s'.mem d n) → s'.mem (pteAddr (pte s'.mem d n)) = s.mem (pteAddr (pte s.mem p n))
  kernel : KernelPart k s'.mem d
  fresh : ∀ r f, Owns s'.mem d r f → f ∈ s.free
  parent : ∀ r f, Owns s'.mem p r f ↔ Owns s.mem p r f
  entries : ∀ n < 1048576, pte s'.mem p n = pte s.mem p n
  disjoint : ∀ r f, Owns s'.mem d r f → ∀ r', ¬Owns s'.mem p r' f

theorem Copies.twin {sz : UInt32} (copies : Copies s s' p d (pages sz)) (kernel : KernelPart k s'.mem d) (drawn : Drawn s s' d ∅)
    (used : InUse s p) (reach : ∀ n, 4096 * n < sz.toNat ↔ n < pages sz) (present : ∀ n, 4096 * n < sz.toNat → Present (pte s.mem p n)) :
    Twin k s s' p d sz := by
  have tables (g : UInt32) (table : InTables s.mem p g) : s'.mem g = s.mem g := used.tables drawn.mem table
  have fresh (r : Role) (f : UInt32) (owned : Owns s'.mem d r f) : f ∈ s.free := (drawn.has f).mp (.inr (.inr ⟨r,owned⟩))
  refine ⟨?_,?_,?_,kernel,fresh,fun r f => owns_congr tables r,fun n inside => pte_congr inside tables,?_⟩
  · intro n inside
    rw [copies.exact n inside,reach]
    exact ⟨fun below => ⟨present n ((reach n).mpr below),below⟩,And.right⟩
  · intro n inside now
    exact copies.flags n ((copies.exact n inside).mp now)
  · intro n inside now
    exact copies.bytes n ((copies.exact n inside).mp now)
  · intro r f owned r' also
    exact used r' f ((owns_congr tables r').mp also) (fresh r f owned)

/-- `copyuvm` gives a child the user pages of its parent on pages of its own, or every page back. -/
theorem copyuvm_twin (k : Linked) (s : Machine) (p sz : UInt32) (others : Set UInt32) (pool : Pool k s others) (used : InUse s p)
    (user : sz < kernBase) (present : ∀ n, 4096 * n < sz.toNat → Present (pte s.mem p n)) :
    ∃ r s', copyuvm k p sz s = .ok (r,s') ∧ (∀ g, g ∉ s.free → s'.mem g = s.mem g) ∧
      ((∃ d, r = some d ∧ Separate k s' d others ∧ Twin k s s' p d sz ∧ ∀ f, f ∈ s.free ↔ f ∈ s'.free ∨ ∃ r, Owns s'.mem d r f) ∨
        r = none ∧ Pool k s' others ∧ (∀ f, f ∈ s'.free ↔ f ∈ s.free) ∧ s.free.length ≤ 1025 + pages sz) := by
  have base : kernBase.toNat = 2147483648 := rfl
  rw [UInt32.lt_iff_toNat_lt,base] at user
  have reach (n : Nat) : 4096 * n < sz.toNat ↔ n < pages sz := by
    rw [pages]
    omega
  have made : Meets (copyuvm k p sz) s
      (fun r s' => (∃ d, r = some d ∧ Separate k s' d others ∧ KernelPart k s'.mem d ∧ Drawn s s' d ∅ ∧ Copies s s' p d (pages sz)) ∨
        r = none ∧ Pool k s' others ∧ Same s s' ∧ s.free.length ≤ 1025 + pages sz) fun _ => False := by
    rw [copyuvm]
    refine (setupkvm_meets pool).bind ?_
    intro r s₁ after
    rcases after with ⟨is,pool₁,same,few⟩ | ⟨d,is,sep₁,kernel,empty,drawn⟩
    · rw [is]
      exact .pure_intro (.inr ⟨rfl,pool₁,same,by omega⟩)
    · rw [is]
      have copies : Copies s s₁ p d 0 := by
        refine ⟨fun n low => ⟨fun now => absurd now (empty n low),fun never => absurd never (by omega)⟩,?_,?_⟩
        · intro n never
          omega
        · intro n never
          omega
      have enough : pages sz < 0 + (sz.toNat / 4096 + 2) := by
        rw [pages]
        omega
      refine (copyLoop_meets used user (fun n below => present n ((reach n).mpr below)) _ 0 rfl (Nat.zero_le _) enough sep₁ kernel drawn
        copies pool.nodup).mono ?_ fun _ never => never
      intro r s₂ after
      rcases after with ⟨is,success⟩ | failed
      · exact .inl ⟨d,is,success⟩
      · exact .inr failed
  obtain ⟨r,s',ran,result⟩ := made.returns fun _ never => never
  refine ⟨r,s',ran,?_,?_⟩
  · rcases result with ⟨d,_,_,_,drawn,_⟩ | ⟨_,_,same⟩
    · exact drawn.mem
    · exact same.1.mem
  · refine result.imp ?_ fun failed => ⟨failed.1,failed.2.1,failed.2.2.1.free,failed.2.2.2⟩
    rintro ⟨d,is,sep,kernel,drawn,copies⟩
    refine ⟨d,is,sep,copies.twin kernel drawn used reach present,?_⟩
    intro f
    rw [← drawn.has f]
    constructor
    · rintro (free | never | owned)
      · exact .inl free
      · exact never.elim
      · exact .inr owned
    · exact Or.imp_right .inr

def freePage (i : Nat) : UInt32 := UInt32.ofNat (201326592 + 65536 * (i / 15 + 1) + 4096 * (i % 15 + 1))

def freePages : List UInt32 := (List.range 3000).map freePage

theorem toNat_freePage {i : Nat} (small : i < 3000) :
    (freePage i).toNat = 201326592 + 65536 * (i / 15 + 1) + 4096 * (i % 15 + 1) := by
  rw [freePage,UInt32.toNat_ofNat']
  omega

theorem mem_freePages (inside : f ∈ freePages) : ∃ i < 3000, f = freePage i := by
  obtain ⟨i,member,is⟩ := List.mem_map.mp inside
  exact ⟨i,List.mem_range.mp member,is.symm⟩

theorem freePages_nodup : freePages.Nodup := by
  refine List.Nodup.map_on ?_ List.nodup_range
  intro i member j member' same
  have small := List.mem_range.mp member
  have small' := List.mem_range.mp member'
  have values := congrArg UInt32.toNat same
  rw [toNat_freePage small,toNat_freePage small'] at values
  omega

theorem freePages_high (inside : f ∈ freePages) : 201326592 < f.toNat := by
  obtain ⟨i,small,is⟩ := mem_freePages inside
  rw [is,toNat_freePage small]
  omega

theorem freePages_frame (inside : f ∈ freePages) : linked.Frame f := by
  obtain ⟨i,small,is⟩ := mem_freePages inside
  have value := toNat_freePage small
  rw [← is] at value
  have top : physTop.toNat = 234881024 := rfl
  have base : kernBase.toNat = 2147483648 := rfl
  have kend : linked.kend.toNat = 2148618240 := rfl
  refine ⟨by omega,?_,?_⟩
  · rw [UInt32.lt_iff_toNat_lt,p2v,UInt32.toNat_add,base,kend]
    omega
  · rw [UInt32.lt_iff_toNat_lt,top]
    omega

/-- A process of one page: directory, table and page at 16 MB. -/
def onePage : Memory := fun g =>
  if g = 0x1000000 then (Bytes.zero 4096).setU32 0 0x1001007
  else if g = 0x1001000 then (Bytes.zero 4096).setU32 0 0x1002007
  else Bytes.zero 4096

theorem tableAt_onePage (i : Nat) : tableAt onePage 0x1000000 i = if i = 0 then some 0x1001000 else none := by
  have entry : pde onePage 0x1000000 i = if i = 0 then 0x1001007 else 0 := by
    rw [pde,onePage,if_pos rfl]
    have word := Bytes.u32_setU32_word (Bytes.zero 4096) 0 i 0x1001007 (by decide)
    rw [Bytes.u32_zeroed] at word
    exact word
  rw [tableAt,entry]
  by_cases first : i = 0
  · rw [if_pos first,if_pos first,if_pos (by decide)]
    decide
  · rw [if_neg first,if_neg first,if_neg not_present_zero]

theorem pte_onePage (n : Nat) : pte onePage 0x1000000 n = if n = 0 then 0x1002007 else 0 := by
  by_cases first : n / 1024 = 0
  · have there := tableAt_onePage (n / 1024)
    rw [if_pos first] at there
    have word := Bytes.u32_setU32_word (Bytes.zero 4096) 0 (n % 1024) 0x1002007 (by decide)
    rw [Bytes.u32_zeroed] at word
    have index : n % 1024 = n := by omega
    rw [pte_table there,onePage,if_neg (by decide),if_pos rfl]
    rw [index] at word ⊢
    exact word
  · have there := tableAt_onePage (n / 1024)
    rw [if_neg first] at there
    rw [pte_missing there,if_neg (by omega)]

theorem owns_onePage {r : Role} (owned : Owns onePage 0x1000000 r f) :
    r = .dir ∧ f = 0x1000000 ∨ r = .table 0 ∧ f = 0x1001000 ∨ r = .user 0 ∧ f = 0x1002000 := by
  cases r with
  | dir => exact .inl ⟨rfl,owned⟩
  | table i =>
    obtain ⟨_,there⟩ := owned
    rw [tableAt_onePage] at there
    by_cases first : i = 0
    · rw [if_pos first] at there
      exact .inr (.inl ⟨by rw [first],(Option.some.inj there).symm⟩)
    · rw [if_neg first] at there
      cases there
  | user n =>
    obtain ⟨_,present,is⟩ := owned
    rw [pte_onePage] at present is
    by_cases first : n = 0
    · rw [if_pos first] at is
      exact .inr (.inr ⟨by rw [first],is.trans (by decide)⟩)
    · rw [if_neg first] at present
      exact absurd present not_present_zero

def oneProcess : Machine := ⟨onePage,freePages⟩

theorem oneProcess_free : oneProcess.free = freePages := by rw [oneProcess]

theorem oneProcess_separate : Separate linked oneProcess 0x1000000 ∅ := by
  have list := oneProcess_free
  refine ⟨?_,?_,fun _ _ _ never => never.elim,?_,list ▸ freePages_nodup,fun f inside => freePages_frame (list ▸ inside),
    fun _ _ never => never.elim⟩
  · intro r r' f owned owned'
    rcases owns_onePage owned with ⟨is,at1⟩ | ⟨is,at1⟩ | ⟨is,at1⟩
    all_goals
      rcases owns_onePage owned' with ⟨is',at2⟩ | ⟨is',at2⟩ | ⟨is',at2⟩
      all_goals
        first
        | exact absurd (at1.symm.trans at2) (by decide)
        | rw [is,is']
  · intro r f owned free
    have high := freePages_high (list ▸ free)
    rcases owns_onePage owned with ⟨_,is⟩ | ⟨_,is⟩ | ⟨_,is⟩
    all_goals
      rw [is] at high
      exact absurd high (by decide)
  · intro r f owned
    rcases owns_onePage owned with ⟨_,is⟩ | ⟨_,is⟩ | ⟨_,is⟩
    all_goals
      rw [is]
      exact ⟨by decide,by decide,by decide⟩

/-- The only page of a process is copied. -/
theorem copyuvm_twin_first_page : Pool linked oneProcess ∅ ∧ InUse oneProcess 0x1000000 ∧ (1 : UInt32) < kernBase ∧
    Present (pte oneProcess.mem 0x1000000 0) ∧ ∃ d s', copyuvm linked 0x1000000 1 oneProcess = .ok (some d,s') ∧
      Twin linked oneProcess s' 0x1000000 d 1 := by
  have sep := oneProcess_separate
  have one : (1 : UInt32).toNat = 1 := rfl
  have present (n : Nat) (below : 4096 * n < (1 : UInt32).toNat) : Present (pte oneProcess.mem 0x1000000 n) := by
    obtain rfl : n = 0 := by omega
    rw [oneProcess,pte_onePage,if_pos rfl]
    decide
  have used : InUse oneProcess 0x1000000 := sep.taken
  obtain ⟨r,s',ran,_,result⟩ := copyuvm_twin linked oneProcess 0x1000000 1 ∅ sep.pool used (by decide) present
  rcases result with ⟨d,is,_,twin,_⟩ | ⟨_,_,_,few⟩
  · exact ⟨sep.pool,used,by decide,present 0 (by decide),d,s',is ▸ ran,twin⟩
  · have size : pages 1 = 1 := rfl
    rw [oneProcess_free,freePages,List.length_map,List.length_range,size] at few
    omega

end Xv6Ext2.Vm
