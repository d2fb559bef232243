import Xv6Ext2.Vm.Alloc

/-! What `allocuvm` and `deallocuvm` do to a process whose pages are those below its size. -/
namespace Xv6Ext2.Vm
open Lib Bio

variable {k : Linked} {s s' : Machine} {d f oldsz newsz : UInt32} {others : Set UInt32}

/-- The present user pages are exactly those below `PGROUNDUP(sz)`. -/
def Exactly (m : Memory) (d sz : UInt32) : Prop := ∀ n < 524288, Present (pte m d n) ↔ 4096 * n < (pgRoundUp sz).toNat

theorem exactly_iff {m : Memory} {sz : UInt32} (low : sz.toNat ≤ 2147483648) :
    Exactly m d sz ↔ ∀ n < 524288, Present (pte m d n) ↔ n < pages sz := by
  have reach (n : Nat) : 4096 * n < (pgRoundUp sz).toNat ↔ n < pages sz := by
    rw [pgRoundUp_page low]
    omega
  simp only [Exactly,reach]

/-- What `allocuvm` has done when it succeeds. -/
structure Allocated (s s' : Machine) (d oldsz newsz : UInt32) : Prop where
  exact : Exactly s'.mem d newsz
  old : ∀ n < 524288, Present (pte s.mem d n) →
    pte s'.mem d n = pte s.mem d n ∧ s'.mem (pteAddr (pte s.mem d n)) = s.mem (pteAddr (pte s.mem d n))
  new : ∀ n < 524288, Present (pte s'.mem d n) → ¬Present (pte s.mem d n) → ∃ f ∈ s.free, f ∉ s'.free ∧
    pte s'.mem d n = f ||| (pteW ||| pteU) ||| pteP ∧ pteAddr (pte s'.mem d n) = f ∧ s'.mem f = Bytes.zero 4096
  distinct : ∀ n < 524288, ∀ n' < 524288, Present (pte s'.mem d n) → Present (pte s'.mem d n') →
    pteAddr (pte s'.mem d n) = pteAddr (pte s'.mem d n') → n = n'
  rest : ∀ g, g ∉ s.free → ¬InTables s.mem d g → s'.mem g = s.mem g

theorem Filled.allocated (start : Separate k s d others) (sep : Separate k s' d others) (order : oldsz.toNat ≤ newsz.toNat)
    (low : newsz.toNat < 2147483648) (before : Exactly s.mem d oldsz) (filled : Filled s s' d (pages oldsz) (pages newsz) ∅) :
    Allocated s s' d oldsz newsz := by
  have more := pages_mono order
  have bound : pages newsz ≤ 524288 := by
    rw [pages]
    omega
  rw [exactly_iff (by omega)] at before
  have kept (n : Nat) (inside : n < 524288) (range : ¬(pages oldsz ≤ n ∧ n < pages newsz)) : pte s'.mem d n = pte s.mem d n :=
    filled.old n (by omega) range
  have fresh (n : Nat) (above : pages oldsz ≤ n) (below : n < pages newsz) : Present (pte s'.mem d n) := by
    obtain ⟨f,_,value,_⟩ := filled.new n above below
    rw [value]
    exact present_entry _ _
  refine ⟨?_,?_,?_,?_,filled.grown.mem⟩
  · rw [exactly_iff (by omega)]
    intro n inside
    by_cases range : pages oldsz ≤ n ∧ n < pages newsz
    · exact ⟨fun _ => range.2,fun _ => fresh n range.1 range.2⟩
    · rw [kept n inside range,before n inside]
      omega
  · intro n inside present
    have owned : Owns s.mem d (.user n) (pteAddr (pte s.mem d n)) := ⟨inside,present,rfl⟩
    have early := (before n inside).mp present
    exact ⟨kept n inside (by omega),filled.grown.mem _ (start.taken _ _ owned) (start.user_apart owned)⟩
  · intro n inside present absent
    have range : pages oldsz ≤ n ∧ n < pages newsz := by
      by_contra outside
      rw [kept n inside outside] at present
      exact absent present
    obtain ⟨f,taken,value,blank⟩ := filled.new n range.1 range.2
    have address : pteAddr (pte s'.mem d n) = f := by
      rw [value,pteAddr_entry (start.freeFrame f taken).aligned (by decide)]
    exact ⟨f,taken,address ▸ sep.taken (.user n) _ ⟨inside,present,rfl⟩,value,address,blank⟩
  · intro n inside n' inside' present present' same
    have role := sep.apart (.user n) (.user n') _ ⟨inside,present,rfl⟩ ⟨inside',present',same⟩
    injection role

theorem deallocuvm_back (sep : Separate k s d others) (order : oldsz.toNat ≤ newsz.toNat) (low : newsz.toNat ≤ 2147483648) :
    ∃ s', deallocuvm k d newsz oldsz s = .ok (oldsz,s') ∧ Separate k s' d others ∧ Shrunk s s' d (pages oldsz) (pages newsz) := by
  by_cases below : oldsz < newsz
  · obtain ⟨r,s',ran,is,sep',shrunk⟩ := (deallocuvm_meets sep low below).returns fun _ never => never
    exact ⟨s',is ▸ ran,sep',shrunk⟩
  · have same : oldsz = newsz := by
      rw [UInt32.lt_iff_toNat_lt] at below
      exact UInt32.toNat_inj.mp (by omega)
    refine ⟨s,?_,sep,?_⟩
    · rw [deallocuvm,same,if_pos (UInt32.le_refl _)]
      rfl
    · rw [same]
      exact .nothing fun n above below => by omega

/-- `allocuvm` and `deallocuvm` change the requested range and nothing else. -/
theorem uvm_range (k : Linked) (s : Machine) (d : UInt32) (others : Set UInt32) (oldsz newsz : UInt32) (sep : Separate k s d others)
    (order : oldsz ≤ newsz) (user : newsz < kernBase) :
    (Exactly s.mem d oldsz → ∃ r s', allocuvm k d oldsz newsz s = .ok (r,s') ∧ Separate k s' d others ∧
      (r = newsz ∧ Allocated s s' d oldsz newsz ∧
          (∃ s'', deallocuvm k d newsz oldsz s' = .ok (oldsz,s'') ∧ Separate k s'' d others ∧ Restored s s'' d ∅) ∨
        r = 0 ∧ Restored s s' d ∅ ∧ s.free.length < demand s.mem d (pages oldsz) (pages newsz))) ∧
    ∃ s', deallocuvm k d newsz oldsz s = .ok (oldsz,s') ∧ Separate k s' d others ∧ Shrunk s s' d (pages oldsz) (pages newsz) := by
  have base : kernBase.toNat = 2147483648 := rfl
  rw [UInt32.le_iff_toNat_le] at order
  rw [UInt32.lt_iff_toNat_lt,base] at user
  refine ⟨?_,deallocuvm_back sep order user.le⟩
  intro before
  have pagesBelow := (exactly_iff (by omega)).mp before
  have clear (n : Nat) (above : pages oldsz ≤ n) (below : n < 524288) : ¬Present (pte s.mem d n) := by
    rw [pagesBelow n below]
    omega
  obtain ⟨r,s',ran,sep',result⟩ := (allocuvm_meets sep order user clear).returns fun _ never => never
  refine ⟨r,s',ran,sep',?_⟩
  rcases result with ⟨is,filled,_⟩ | failed
  · obtain ⟨s'',back,sep'',shrunk⟩ := deallocuvm_back sep' order user.le
    have bound : pages newsz ≤ 524288 := by
      rw [pages]
      omega
    have restored := filled.restored sep shrunk le_rfl bound fun n above below => clear n above (by omega)
    exact .inl ⟨is,filled.allocated sep sep' order user before,s'',back,sep'',restored⟩
  · exact .inr failed

theorem linked_aligned : (0x80108000 : UInt32).toNat % 4096 = 0 := by decide

theorem linked_text : kernLink < 0x80108000 := by decide

theorem linked_after : (0x80108000 : UInt32) ≤ 0x80115000 := by decide

theorem linked_inside : (0x80115000 : UInt32) < p2v physTop := by decide

/-- A kernel of 84 kilobytes. -/
def linked : Linked := ⟨0x80108000,0x80115000,linked_aligned,linked_text,linked_after,linked_inside⟩

/-- A machine with an empty page directory at 16 MB and three free pages. -/
def blankMachine : Machine := ⟨fun _ => Bytes.zero 4096,[0x1001000,0x1002000,0x1004000]⟩

theorem blankMachine_separate : Separate linked blankMachine 0x1000000 ∅ := by
  refine separate_blank rfl ⟨by decide,by decide,by decide⟩ (by decide) (fun never => never.elim) (by decide) ?_ fun _ _ never => never.elim
  intro f inside
  have either : f = 0x1001000 ∨ f = 0x1002000 ∨ f = 0x1004000 := by simpa [blankMachine] using inside
  rcases either with here | here | here
  all_goals
    rw [here]
    exact ⟨by decide,by decide,by decide⟩

theorem blankMachine_exactly : Exactly blankMachine.mem 0x1000000 0 := by
  intro n _
  have absent : ¬Present (pte blankMachine.mem 0x1000000 n) := by
    rw [pte_missing (tableAt_blank _ _ rfl _)]
    exact not_present_zero
  have none : (pgRoundUp 0).toNat = 0 := rfl
  rw [none]
  exact ⟨fun present => absurd present absent,fun below => absurd below (by omega)⟩

/-- One byte needs a page and a page table, and they are there. -/
theorem uvm_range_one_byte : (0 : UInt32) ≤ 1 ∧ (1 : UInt32) < kernBase ∧ Separate linked blankMachine 0x1000000 ∅ ∧
    Exactly blankMachine.mem 0x1000000 0 ∧ ∃ s' s'', allocuvm linked 0x1000000 0 1 blankMachine = .ok (1,s') ∧
      Allocated blankMachine s' 0x1000000 0 1 ∧ deallocuvm linked 0x1000000 1 0 s' = .ok (0,s'') ∧
      Restored blankMachine s'' 0x1000000 ∅ := by
  obtain ⟨r,s',ran,_,result⟩ :=
    (uvm_range linked blankMachine 0x1000000 ∅ 0 1 blankMachine_separate (by decide) (by decide)).1 blankMachine_exactly
  rcases result with ⟨is,allocated,s'',back,_,restored⟩ | ⟨_,_,few⟩
  · exact ⟨by decide,by decide,blankMachine_separate,blankMachine_exactly,s',s'',is ▸ ran,allocated,back,restored⟩
  · have most := demand_le_double blankMachine.mem 0x1000000 (pages 0) (pages 1)
    have three : blankMachine.free.length = 3 := rfl
    have old : pages 0 = 0 := rfl
    have new : pages 1 = 1 := rfl
    omega

end Xv6Ext2.Vm
