import Xv6Ext2.Vm.Range

/-! `growproc`. A request that ends at or below 0 is not refused: it frees every page and fails, or it does nothing and
succeeds. -/
namespace Xv6Ext2.Vm
open Lib Bio

/-- The `int` with these bits. -/
def signed (n : UInt32) : Int := if n < 0x80000000 then n.toNat else n.toNat - 4294967296

/-- The pages of a directory are those of a size; contents were kept, and new pages are zero. -/
structure Resized (s s' : Machine) (d sz : UInt32) : Prop where
  exact : Exactly s'.mem d sz
  kept : ∀ n < 524288, Present (pte s.mem d n) → Present (pte s'.mem d n) →
    pte s'.mem d n = pte s.mem d n ∧ s'.mem (pteAddr (pte s.mem d n)) = s.mem (pteAddr (pte s.mem d n))
  fresh : ∀ n < 524288, ¬Present (pte s.mem d n) → Present (pte s'.mem d n) → s'.mem (pteAddr (pte s'.mem d n)) = Bytes.zero 4096

def Untouched (s s' : Machine) (d : UInt32) : Prop :=
  ∀ n < 524288, (Present (pte s'.mem d n) ↔ Present (pte s.mem d n)) ∧ (Present (pte s.mem d n) →
    pte s'.mem d n = pte s.mem d n ∧ s'.mem (pteAddr (pte s.mem d n)) = s.mem (pteAddr (pte s.mem d n)))

/-- `growproc` is exact and all-or-nothing. -/
def GrowsExactly (k : Linked) (s : Machine) (p : Proc) (n : UInt32) : Prop :=
  ∃ r p' s', growproc k p n s = .ok ((r,p'),s') ∧ p'.pgdir = p.pgdir ∧ (r = 0 ∨ r = -1) ∧
    (r = 0 → (p'.sz.toNat : Int) = p.sz.toNat + signed n ∧ p'.sz < kernBase ∧ Resized s s' p.pgdir p'.sz) ∧
    (r = -1 → p'.sz = p.sz ∧ Untouched s s' p.pgdir)

variable {k : Linked} {s s' : Machine} {d oldsz newsz : UInt32} {others : Set UInt32} {p : Proc} {n : UInt32}

theorem Untouched.refl (s : Machine) (d : UInt32) : Untouched s s d := fun _ _ => ⟨Iff.rfl,fun _ => ⟨rfl,rfl⟩⟩

theorem Restored.untouched (sep : Separate k s d others) (restored : Restored s s' d ∅) : Untouched s s' d := by
  intro n inside
  by_cases present : Present (pte s.mem d n)
  · have owned : Owns s.mem d (.user n) (pteAddr (pte s.mem d n)) := ⟨inside,present,rfl⟩
    have same := restored.mapped n (by omega) present
    refine ⟨by rw [same],fun _ => ⟨same,?_⟩⟩
    exact restored.mem _ (sep.taken _ _ owned) (sep.user_apart owned)
  · have absent := restored.unmapped n (by omega) present
    exact ⟨⟨fun now => absurd now absent,fun was => absurd was present⟩,fun was => absurd was present⟩

theorem Allocated.resized (allocated : Allocated s s' d oldsz newsz) : Resized s s' d newsz := by
  refine ⟨allocated.exact,fun n inside was _ => allocated.old n inside was,?_⟩
  intro n inside absent present
  obtain ⟨f,_,_,_,address,blank⟩ := allocated.new n inside present absent
  rw [address,blank]

theorem Shrunk.resized (sep : Separate k s' d others) (order : newsz.toNat ≤ oldsz.toNat)
    (low : oldsz.toNat < 2147483648) (before : Exactly s.mem d oldsz) (apart : Separate k s d others)
    (shrunk : Shrunk s s' d (pages newsz) (pages oldsz)) : Resized s s' d newsz := by
  rw [exactly_iff (by omega)] at before
  have fewer := pages_mono order
  have entry (n : Nat) (inside : n < 524288) : pte s'.mem d n = if pages newsz ≤ n ∧ n < pages oldsz then 0 else pte s.mem d n := by
    rw [shrunk.entries n (by omega)]
    have present := before n inside
    by_cases range : pages newsz ≤ n ∧ n < pages oldsz
    · rw [if_pos range,if_pos ⟨range.1,range.2,present.mpr range.2⟩]
    · rw [if_neg range,if_neg fun all => range ⟨all.1,all.2.1⟩]
  refine ⟨?_,?_,?_⟩
  · rw [exactly_iff (by omega)]
    intro n inside
    rw [entry n inside]
    by_cases range : pages newsz ≤ n ∧ n < pages oldsz
    · rw [if_pos range]
      exact ⟨fun present => absurd present not_present_zero,fun below => absurd below (by omega)⟩
    · rw [if_neg range,before n inside]
      omega
  · intro n inside was now
    have same : pte s'.mem d n = pte s.mem d n := by
      rw [entry n inside]
      by_cases range : pages newsz ≤ n ∧ n < pages oldsz
      · rw [entry n inside,if_pos range] at now
        exact absurd now not_present_zero
      · rw [if_neg range]
    have owned : Owns s.mem d (.user n) (pteAddr (pte s.mem d n)) := ⟨inside,was,rfl⟩
    have owned' : Owns s'.mem d (.user n) (pteAddr (pte s.mem d n)) := ⟨inside,now,by rw [same]⟩
    exact ⟨same,shrunk.mem _ (apart.user_apart owned) (.inl (sep.taken _ _ owned'))⟩
  · intro n inside absent present
    rw [entry n inside] at present
    by_cases range : pages newsz ≤ n ∧ n < pages oldsz
    · rw [if_pos range] at present
      exact absurd present not_present_zero
    · rw [if_neg range] at present
      exact absurd present absent

theorem growproc_more (sep : Separate k s p.pgdir others) (low : p.sz.toNat < 2147483648) (before : Exactly s.mem p.pgdir p.sz)
    (more : n ≠ 0 ∧ n < 0x80000000) : GrowsExactly k s p n := by
  have half : (0x80000000 : UInt32).toNat = 2147483648 := rfl
  have positive : 0 < n.toNat := by
    rcases Nat.eq_zero_or_pos n.toNat with zero | positive
    · exact absurd (UInt32.toNat_inj.mp zero) more.1
    · exact positive
  have small := more.2
  rw [UInt32.lt_iff_toNat_lt,half] at small
  have value : signed n = n.toNat := if_pos more.2
  have sum : (p.sz + n).toNat = p.sz.toNat + n.toNat := by
    rw [UInt32.toNat_add]
    omega
  by_cases high : p.sz + n ≥ kernBase
  · refine ⟨-1,p,s,?_,rfl,.inr rfl,fun no => absurd no (by decide),fun _ => ⟨rfl,.refl s _⟩⟩
    have refused : allocuvm k p.pgdir p.sz (p.sz + n) s = .ok (0,s) := by
      rw [allocuvm,if_pos high]
      rfl
    rw [growproc,if_pos more,bind_ok refused,if_pos rfl]
    rfl
  · have base : kernBase.toNat = 2147483648 := rfl
    have user : (p.sz + n).toNat < 2147483648 := by
      rw [ge_iff_le,UInt32.le_iff_toNat_le,base] at high
      omega
    have clear (n : Nat) (above : pages p.sz ≤ n) (below : n < 524288) : ¬Present (pte s.mem p.pgdir n) := by
      rw [(exactly_iff (by omega)).mp before n below]
      omega
    obtain ⟨r,s',ran,sep',result⟩ := (allocuvm_meets sep (by omega) user clear).returns fun _ never => never
    rcases result with ⟨is,filled,_⟩ | ⟨is,restored,_⟩
    · have some : r ≠ 0 := by
        intro zero
        rw [is] at zero
        have nothing : (p.sz + n).toNat = 0 := by rw [zero]; rfl
        omega
      refine ⟨0,{p with sz := r},s',?_,rfl,.inl rfl,fun _ => ?_,fun no => absurd no (by decide)⟩
      · rw [growproc,if_pos more,bind_ok ran,if_neg some]
        rfl
      · refine ⟨?_,?_,?_⟩
        · rw [is,value,sum]
          push_cast
          rfl
        · rw [is,UInt32.lt_iff_toNat_lt,base]
          exact user
        · rw [is]
          exact (filled.allocated sep sep' (by omega) user before).resized
    · refine ⟨-1,p,s',?_,rfl,.inr rfl,fun no => absurd no (by decide),fun _ => ⟨rfl,restored.untouched sep⟩⟩
      rw [growproc,if_pos more,bind_ok ran,if_pos is]
      rfl

theorem growproc_less (sep : Separate k s p.pgdir others) (low : p.sz.toNat < 2147483648) (before : Exactly s.mem p.pgdir p.sz)
    (less : 0x80000000 ≤ n) (above : 4294967296 < p.sz.toNat + n.toNat) : GrowsExactly k s p n := by
  have half : (0x80000000 : UInt32).toNat = 2147483648 := rfl
  have base : kernBase.toNat = 2147483648 := rfl
  have bound := n.toNat_lt
  have nonzero : n ≠ 0 := by
    intro zero
    rw [zero] at less
    exact absurd less (by decide)
  have negative : ¬n < 0x80000000 := UInt32.not_lt.mpr less
  have value : signed n = n.toNat - 4294967296 := if_neg negative
  have sum : (p.sz + n).toNat = p.sz.toNat + n.toNat - 4294967296 := by
    rw [UInt32.toNat_add]
    omega
  have below : p.sz + n < p.sz := by
    rw [UInt32.lt_iff_toNat_lt]
    omega
  obtain ⟨r,s',ran,is,sep',shrunk⟩ := (deallocuvm_meets sep (by omega) below).returns fun _ never => never
  have some : r ≠ 0 := by
    intro zero
    rw [is] at zero
    have nothing : (p.sz + n).toNat = 0 := by rw [zero]; rfl
    omega
  refine ⟨0,{p with sz := r},s',?_,rfl,.inl rfl,fun _ => ?_,fun no => absurd no (by decide)⟩
  · rw [growproc,if_neg fun both => negative both.2,if_pos nonzero,bind_ok ran,if_neg some]
    rfl
  · refine ⟨?_,?_,?_⟩
    · rw [is,value]
      dsimp only
      omega
    · rw [is,UInt32.lt_iff_toNat_lt,base]
      dsimp only
      omega
    · rw [is]
      have fewer : (p.sz + n).toNat ≤ p.sz.toNat := by omega
      exact shrunk.resized sep' fewer low before sep

theorem growproc_to_zero (sep : Separate k s p.pgdir others) (low : p.sz.toNat < 2147483648) (before : Exactly s.mem p.pgdir p.sz)
    (some : p.sz ≠ 0) (sum : p.sz + n = 0) (less : 0x80000000 ≤ n) :
    ∃ s', growproc k p n s = .ok ((-1,p),s') ∧ Present (pte s.mem p.pgdir 0) ∧ ¬Present (pte s'.mem p.pgdir 0) := by
  have negative : ¬n < 0x80000000 := UInt32.not_lt.mpr less
  have nonzero : n ≠ 0 := by
    intro zero
    rw [zero] at less
    exact absurd less (by decide)
  have positive : 0 < p.sz.toNat := by
    rcases Nat.eq_zero_or_pos p.sz.toNat with zero | positive
    · exact absurd (UInt32.toNat_inj.mp zero) some
    · exact positive
  have below : p.sz + n < p.sz := by
    rw [sum,UInt32.lt_iff_toNat_lt]
    exact positive
  obtain ⟨r,s',ran,is,_,shrunk⟩ := (deallocuvm_meets sep (by omega) below).returns fun _ never => never
  have first : Present (pte s.mem p.pgdir 0) := by
    rw [(exactly_iff (by omega)).mp before 0 (by omega),pages]
    omega
  refine ⟨s',?_,first,?_⟩
  · rw [growproc,if_neg fun both => negative both.2,if_pos nonzero,bind_ok ran,if_pos (is.trans sum)]
    rfl
  · have reach : 0 < pages p.sz := by
      rw [pages]
      omega
    have start : pages (p.sz + n) = 0 := by
      rw [sum]
      rfl
    rw [shrunk.entries 0 (by omega),if_pos ⟨by rw [start],reach,first⟩]
    exact not_present_zero

theorem growproc_below_zero (low : p.sz.toNat < 2147483648) (less : 0x80000000 ≤ n)
    (under : p.sz.toNat + n.toNat < 4294967296) :
    growproc k p n s = .ok ((if p.sz = 0 then (-1,p) else (0,p)),s) := by
  have half : (0x80000000 : UInt32).toNat = 2147483648 := rfl
  have negative : ¬n < 0x80000000 := UInt32.not_lt.mpr less
  have nonzero : n ≠ 0 := by
    intro zero
    rw [zero] at less
    exact absurd less (by decide)
  have beyond : p.sz + n ≥ p.sz := by
    rw [ge_iff_le,UInt32.le_iff_toNat_le,UInt32.toNat_add]
    rw [UInt32.le_iff_toNat_le,half] at less
    omega
  have ran : deallocuvm k p.pgdir p.sz (p.sz + n) s = .ok (p.sz,s) := by
    rw [deallocuvm,if_pos beyond]
    rfl
  rw [growproc,if_neg fun both => negative both.2,if_pos nonzero,bind_ok ran]
  by_cases zero : p.sz = 0
  · rw [if_pos zero,if_pos zero]
    rfl
  · rw [if_neg zero,if_neg zero]
    rfl

/-- `growproc` is exact unless it is asked to go to 0 or below. -/
theorem growproc_exact_iff (k : Linked) (s : Machine) (p : Proc) (n : UInt32) (others : Set UInt32) (sep : Separate k s p.pgdir others)
    (user : p.sz < kernBase) (before : Exactly s.mem p.pgdir p.sz) :
    GrowsExactly k s p n ↔ 0 ≤ signed n ∨ 0 < (p.sz.toNat : Int) + signed n ∨ p.sz = 0 := by
  have base : kernBase.toNat = 2147483648 := rfl
  have half : (0x80000000 : UInt32).toNat = 2147483648 := rfl
  rw [UInt32.lt_iff_toNat_lt,base] at user
  have bound := n.toNat_lt
  by_cases negative : n < 0x80000000
  · have value : signed n = n.toNat := if_pos negative
    refine ⟨fun _ => .inl (by omega),fun _ => ?_⟩
    by_cases zero : n = 0
    · refine ⟨0,p,s,?_,rfl,.inl rfl,fun _ => ?_,fun no => absurd no (by decide)⟩
      · rw [growproc,if_neg fun both => both.1 zero,if_neg (not_not.mpr zero)]
        rfl
      · refine ⟨?_,?_,before,fun _ _ _ _ => ⟨rfl,rfl⟩,fun _ _ absent present => absurd present absent⟩
        · rw [value,zero]
          simp
        · rw [UInt32.lt_iff_toNat_lt,base]
          exact user
    · exact growproc_more sep user before ⟨zero,negative⟩
  · have less := UInt32.not_lt.mp negative
    have high := less
    rw [UInt32.le_iff_toNat_le,half] at high
    have value : signed n = n.toNat - 4294967296 := if_neg negative
    constructor
    · rintro ⟨r,p',s',ran,_,_,success,failure⟩
      by_contra none
      obtain ⟨_,atMost,some⟩ : ¬0 ≤ signed n ∧ ¬0 < (p.sz.toNat : Int) + signed n ∧ p.sz ≠ 0 := by
        exact ⟨fun a => none (.inl a),fun a => none (.inr (.inl a)),fun a => none (.inr (.inr a))⟩
      by_cases under : p.sz.toNat + n.toNat < 4294967296
      · rw [growproc_below_zero user less under,if_neg some] at ran
        obtain ⟨rfl,rfl⟩ : 0 = r ∧ p = p' := by
          cases ran
          exact ⟨rfl,rfl⟩
        have size := (success rfl).1
        omega
      · have sum : p.sz + n = 0 := by
          apply UInt32.toNat_inj.mp
          have zero : (0 : UInt32).toNat = 0 := rfl
          rw [UInt32.toNat_add,zero]
          omega
        obtain ⟨s'',ran',was,gone⟩ := growproc_to_zero sep user before some sum less
        rw [ran'] at ran
        obtain ⟨rfl,rfl,rfl⟩ : -1 = r ∧ p = p' ∧ s'' = s' := by
          cases ran
          exact ⟨rfl,rfl,rfl⟩
        exact gone (((failure rfl).2 0 (by omega)).1.mpr was)
    · rintro (positive | above | zero)
      · omega
      · exact growproc_less sep user before less (by omega)
      · refine ⟨-1,p,s,?_,rfl,.inr rfl,fun no => absurd no (by decide),fun _ => ⟨rfl,.refl s _⟩⟩
        have nothing : p.sz.toNat = 0 := by
          rw [zero]
          rfl
        rw [growproc_below_zero user less (by omega),if_pos zero]

theorem blankMachine_grows : ∃ s, Separate linked s 0x1000000 ∅ ∧ Exactly s.mem 0x1000000 4096 ∧ s.free.length = 1 ∧
    tableAt s.mem 0x1000000 0 ≠ none := by
  have old : pages 0 = 0 := rfl
  have new : pages 4096 = 1 := rfl
  have cost : demand blankMachine.mem 0x1000000 0 1 = 2 := by
    rw [demand_one,tableCost,if_pos (tableAt_blank _ _ rfl _)]
  have absent (n : Nat) (above : pages 0 ≤ n) (below : n < 524288) : ¬Present (pte blankMachine.mem 0x1000000 n) := by
    rw [(exactly_iff (by decide)).mp blankMachine_exactly n below]
    omega
  have three : blankMachine.free.length = 3 := rfl
  obtain ⟨r,s,ran,sep,result⟩ := (allocuvm_meets blankMachine_separate (by decide : (0 : UInt32).toNat ≤ (4096 : UInt32).toNat)
    (by decide) absent).returns fun _ never => never
  rcases result with ⟨_,filled,spent⟩ | ⟨_,_,few⟩
  · have count := spent.count
    rw [old,new,cost,three] at count
    have exact := (filled.allocated blankMachine_separate sep (by decide) (by decide) blankMachine_exactly).exact
    refine ⟨s,sep,exact,by omega,?_⟩
    obtain ⟨t,there⟩ := present_table ((exact 0 (by omega)).mpr (by decide))
    rw [there]
    exact Option.some_ne_none t
  · rw [old,new,cost,three] at few
    omega

/-- A process of one page grows by a byte, for which it gets a second page. -/
theorem growproc_exact_one_more : ∃ s s', Separate linked s 0x1000000 ∅ ∧ Exactly s.mem 0x1000000 4096 ∧
    (4096 : UInt32) < kernBase ∧ GrowsExactly linked s ⟨0x1000000,4096⟩ 1 ∧
    growproc linked ⟨0x1000000,4096⟩ 1 s = .ok ((0,⟨0x1000000,4097⟩),s') := by
  obtain ⟨s,sep,before,one,table⟩ := blankMachine_grows
  have old : pages 4096 = 1 := rfl
  have new : pages 4097 = 2 := rfl
  have cost : demand s.mem 0x1000000 1 2 = 1 := by
    rw [demand_one,tableCost,if_neg table]
  have absent (n : Nat) (above : pages 4096 ≤ n) (below : n < 524288) : ¬Present (pte s.mem 0x1000000 n) := by
    rw [(exactly_iff (by decide)).mp before n below]
    omega
  obtain ⟨r,s',ran,_,result⟩ := (allocuvm_meets sep (by decide : (4096 : UInt32).toNat ≤ (4097 : UInt32).toNat)
    (by decide) absent).returns fun _ never => never
  rw [old,new,cost,one] at result
  rcases result with ⟨is,_⟩ | ⟨_,_,few⟩
  · have sum : (4096 : UInt32) + 1 = 4097 := by decide
    refine ⟨s,s',sep,before,by decide,
      (growproc_exact_iff linked s ⟨0x1000000,4096⟩ 1 ∅ sep (by decide) before).mpr (.inl (by decide)),?_⟩
    rw [growproc,if_pos (by decide),sum,bind_ok (is ▸ ran),if_neg (by decide)]
    rfl
  · omega

/-- A process of one page that gives back its page is refused after it was freed, and one that gives back two pages keeps
its size with success. -/
theorem growproc_refuses_after_freeing : ∃ s s', Separate linked s 0x1000000 ∅ ∧ Exactly s.mem 0x1000000 4096 ∧
    growproc linked ⟨0x1000000,4096⟩ 0xFFFFF000 s = .ok ((-1,⟨0x1000000,4096⟩),s') ∧
    Present (pte s.mem 0x1000000 0) ∧ ¬Present (pte s'.mem 0x1000000 0) ∧
    growproc linked ⟨0x1000000,4096⟩ 0xFFFFE000 s = .ok ((0,⟨0x1000000,4096⟩),s) := by
  obtain ⟨s,sep,before,_⟩ := blankMachine_grows
  obtain ⟨s',ran,was,gone⟩ := growproc_to_zero (p := ⟨0x1000000,4096⟩) (n := 0xFFFFF000) sep (by decide) before (by decide) (by decide)
    (by decide)
  exact ⟨s,s',sep,before,ran,was,gone,growproc_below_zero (by decide) (by decide) (by decide)⟩

end Xv6Ext2.Vm
