import Xv6Ext2.Vm.Walk

/-! `allocuvm` and `deallocuvm`: they map and unmap the pages between two sizes and nothing else. -/
namespace Xv6Ext2.Vm
open Lib Bio Function

variable {k : Linked} {s s' s'' : Machine} {d f g t : UInt32} {others : Set UInt32} {n lo mid hi : Nat}

/-- The number of pages that a size reaches into: `PGROUNDUP(sz) / PGSIZE`. -/
def pages (sz : UInt32) : Nat := (sz.toNat + 4095) / 4096

structure Shrunk (s s' : Machine) (d : UInt32) (lo hi : Nat) : Prop where
  tables : ∀ i, tableAt s'.mem d i = tableAt s.mem d i
  entries : ∀ n < 1048576, pte s'.mem d n = if lo ≤ n ∧ n < hi ∧ Present (pte s.mem d n) then 0 else pte s.mem d n
  free : ∃ freed, s'.free = freed ++ s.free ∧
    ∀ f, f ∈ freed ↔ ∃ n, lo ≤ n ∧ n < hi ∧ Present (pte s.mem d n) ∧ pteAddr (pte s.mem d n) = f
  mem : ∀ g, ¬InTables s.mem d g → g ∉ s'.free ∨ g ∈ s.free → s'.mem g = s.mem g

namespace Shrunk

theorem inTables_iff (shrunk : Shrunk s s' d lo hi) : InTables s'.mem d f ↔ InTables s.mem d f := by
  simp only [InTables,shrunk.tables]

theorem subset (shrunk : Shrunk s s' d lo hi) (inside : f ∈ s.free) : f ∈ s'.free := by
  obtain ⟨freed,list,_⟩ := shrunk.free
  rw [list]
  exact List.mem_append_right _ inside

theorem nothing (none : ∀ n, lo ≤ n → n < hi → ¬Present (pte s.mem d n)) : Shrunk s s d lo hi := by
  refine ⟨fun _ => rfl,?_,⟨[],rfl,?_⟩,fun _ _ _ => rfl⟩
  · intro n _
    rw [if_neg fun inside => none n inside.1 inside.2.1 inside.2.2]
  · intro f
    constructor
    · intro inside
      exact absurd inside List.not_mem_nil
    · rintro ⟨n,low,high,present,_⟩
      exact absurd present (none n low high)

theorem of_empty (shrunk : Shrunk s s' d lo hi) (empty : hi ≤ lo) {lo' hi' : Nat} (empty' : hi' ≤ lo') : Shrunk s s' d lo' hi' := by
  refine ⟨shrunk.tables,?_,?_,shrunk.mem⟩
  · intro n inside
    rw [shrunk.entries n inside,if_neg (by omega),if_neg (by omega)]
  · obtain ⟨freed,list,is⟩ := shrunk.free
    refine ⟨freed,list,?_⟩
    intro f
    rw [is]
    constructor
    · rintro ⟨n,low,high,_⟩
      omega
    · rintro ⟨n,low,high,_⟩
      omega

theorem trans (first : Shrunk s s' d lo mid) (second : Shrunk s' s'' d mid hi) (below : lo ≤ mid) (above : mid ≤ hi)
    (bound : hi ≤ 1048576) : Shrunk s s'' d lo hi where
  tables i := (second.tables i).trans (first.tables i)
  entries n inside := by
    rw [second.entries n inside,first.entries n inside]
    by_cases present : Present (pte s.mem d n)
    · by_cases early : n < mid
      · have late : ¬mid ≤ n := by omega
        have reach : n < hi := by omega
        simp [present,early,late,reach]
      · have late : mid ≤ n := by omega
        have reach : lo ≤ n := by omega
        simp [present,early,late,reach]
    · simp [present]
  free := by
    obtain ⟨freed,list,is⟩ := first.free
    obtain ⟨more,list',is'⟩ := second.free
    refine ⟨more ++ freed,by rw [list',list,List.append_assoc],?_⟩
    intro f
    rw [List.mem_append,is,is']
    have later (n : Nat) (low : mid ≤ n) (high : n < hi) : pte s'.mem d n = pte s.mem d n := by
      rw [first.entries n (by omega),if_neg (by omega)]
    constructor
    · rintro (⟨n,low,high,present,is⟩ | ⟨n,low,high,present,is⟩)
      · rw [later n low high] at present is
        exact ⟨n,by omega,high,present,is⟩
      · exact ⟨n,low,by omega,present,is⟩
    · rintro ⟨n,low,high,present,is⟩
      by_cases early : n < mid
      · exact .inr ⟨n,low,early,present,is⟩
      · rw [← later n (by omega) high] at present is
        exact .inl ⟨n,by omega,high,present,is⟩
  mem g outside kept := by
    have outside' : ¬InTables s'.mem d g := fun inside => outside (first.inTables_iff.mp inside)
    have later : g ∉ s''.free ∨ g ∈ s'.free := kept.imp_right first.subset
    have sooner : g ∉ s'.free ∨ g ∈ s.free := kept.imp_left fun away inside => away (second.subset inside)
    rw [second.mem g outside' later,first.mem g outside sooner]

end Shrunk

theorem Linked.Frame.ne_zero (frame : k.Frame f) : f ≠ 0 := by
  intro zero
  have early := frame.behind
  rw [zero] at early
  have base : p2v 0 < kernLink := by decide
  exact early (UInt32.lt_of_lt_of_le (UInt32.lt_trans base k.text) k.after)

theorem release_meets (sep : Separate k s d others) (low : n < 524288) (there : tableAt s.mem d (n / 1024) = some t)
    (present : Present (pte s.mem d n)) {next : M Unit} {post : Unit → Machine → Prop} {fail : Fault → Prop}
    (rest : ∀ s', Separate k s' d others → Shrunk s s' d n (n + 1) → Meets next s' post fail) :
    Meets (do kfree k (pteAddr (pte s.mem d n)); setWord t (n % 1024) 0; next) s post fail := by
  have owned : Owns s.mem d (.user n) (pteAddr (pte s.mem d n)) := ⟨low,present,rfl⟩
  have frame := sep.frame _ _ owned
  have table : InTables s.mem d t := .inr ⟨n / 1024,by omega,there⟩
  generalize address : pteAddr (pte s.mem d n) = f at *
  have other : t ≠ f := fun same => sep.user_apart owned (same ▸ table)
  obtain ⟨s₁,ran,list,same⟩ := kfree_run (s := s) frame
  refine .step ran (.step rfl ?_)
  -- the same memory as when the entry is cleared first
  have cleared (g : UInt32) (away : g ≠ f) : stored s₁.mem t n 0 g = stored s.mem t n 0 g := by
    by_cases here : g = t
    · rw [here,stored,stored,update_self,update_self,same t other]
    · rw [stored_of_ne here,stored_of_ne here,same g away]
  have sep₁ : Separate k ⟨stored s₁.mem t n 0,s₁.free⟩ d others := (sep.unmap owned there).give frame (sep.own _ _ owned) cleared list
  have tables : ∀ i, tableAt (stored s₁.mem t n 0) d i = tableAt s.mem d i := by
    intro i
    rw [tableAt_congr (cleared d fun same => sep.user_apart owned (.inl same.symm)),sep.tableAt_stored there (by omega)]
  have entries (n' : Nat) (inside : n' < 1048576) : pte (stored s₁.mem t n 0) d n' = if n' = n then 0 else pte s.mem d n' := by
    have seen : pte (stored s₁.mem t n 0) d n' = pte (stored s.mem t n 0) d n' := by
      refine pte_congr inside ?_
      intro g read
      refine cleared g fun same => ?_
      rw [InTables] at read
      simp only [sep.tableAt_stored there (by omega : n < 1048576)] at read
      exact sep.user_apart owned (same ▸ read)
    rw [seen,sep.pte_stored there (by omega) inside]
  refine rest ⟨stored s₁.mem t n 0,s₁.free⟩ sep₁ ⟨tables,?_,⟨[f],list,?_⟩,?_⟩
  · intro n' inside
    rw [entries n' inside]
    by_cases here : n' = n
    · rw [if_pos here,if_pos ⟨by omega,by omega,here ▸ present⟩]
    · rw [if_neg here,if_neg (by omega)]
  · intro g
    rw [List.mem_singleton]
    constructor
    · intro is
      exact ⟨n,by omega,by omega,present,by rw [address,is]⟩
    · rintro ⟨n',low',high',_,is⟩
      have here : n' = n := by omega
      rw [here,address] at is
      exact is.symm
  · intro g outside kept
    have away : g ≠ f := by
      intro here
      rcases kept with away | inside
      · exact away (by rw [list,here]; exact List.mem_cons_self)
      · exact sep.taken _ _ owned (here ▸ inside)
    exact (cleared g away).trans (stored_of_ne fun here => outside (here ▸ table))

theorem deallocLoop_meets (sep : Separate k s d others) (oldsz : UInt32) (low : oldsz.toNat ≤ 2147483648) (fuel : Nat) (a : UInt32)
    (page : a.toNat = 4096 * n) (some : 0 < fuel) (enough : pages oldsz < n + fuel) :
    Meets (deallocLoop k d oldsz fuel a) s (fun _ s' => Separate k s' d others ∧ Shrunk s s' d n (max n (pages oldsz))) fun _ => False := by
  induction fuel generalizing s a n with
  | zero => omega
  | succ fuel ih =>
    have reach : a < oldsz ↔ n < pages oldsz := by
      rw [UInt32.lt_iff_toNat_lt,page,pages]
      omega
    rw [deallocLoop]
    by_cases inside : a < oldsz
    · rw [if_pos inside]
      rw [reach] at inside
      have bound : pages oldsz ≤ 524288 := by
        rw [pages]
        omega
      have top : max n (pages oldsz) = pages oldsz := Nat.max_eq_right (by omega)
      rw [top]
      have number : a.toNat / 4096 = n := by omega
      have next : (a + pgSize).toNat = 4096 * (n + 1) := by
        rw [toNat_next (by omega)]
        omega
      -- what the rest of the loop does, from page `mid` on
      have onward (s' : Machine) (sep' : Separate k s' d others) (mid : Nat) (b : UInt32) (page' : b.toNat = 4096 * mid)
          (above : n < mid) (first : Shrunk s s' d n (min mid (pages oldsz))) :
          Meets (deallocLoop k d oldsz fuel b) s' (fun _ s'' => Separate k s'' d others ∧ Shrunk s s'' d n (pages oldsz)) fun _ => False := by
        refine (ih sep' b page' (by omega) (by omega)).mono ?_ fun _ never => never
        intro _ s'' after
        refine ⟨after.1,?_⟩
        by_cases past : mid ≤ pages oldsz
        · rw [Nat.min_eq_left past] at first
          rw [Nat.max_eq_right past] at after
          exact first.trans after.2 (by omega) past (by omega)
        · rw [Nat.min_eq_right (by omega)] at first
          rw [Nat.max_eq_left (by omega)] at after
          exact first.trans (after.2.of_empty le_rfl le_rfl) (by omega) le_rfl (by omega)
      cases there : tableAt s.mem d (n / 1024) with
      | none =>
        -- a table that is missing is skipped as a whole
        refine .step (walk_missing (by rw [number]; exact there)) ?_
        refine onward s sep (1024 * (n / 1024 + 1)) _ ?_ (by omega) ?_
        · rw [toNat_pgAddr_next (by omega),number]
          omega
        · refine .nothing fun n' low' high' present => ?_
          obtain ⟨t,found⟩ := present_table present
          have same : n' / 1024 = n / 1024 := by omega
          rw [same,there] at found
          cases found
      | some t =>
        refine .step (walk_present (by rw [number]; exact there) false) ?_
        have read : word t (a.toNat / 4096 % 1024) s = .ok (pte s.mem d n,s) := by
          rw [number,pte_table there]
          rfl
        refine .step read ?_
        by_cases present : Present (pte s.mem d n)
        · rw [if_pos present]
          have frame := sep.frame (.user n) _ ⟨by omega,present,rfl⟩
          rw [if_neg frame.ne_zero,number]
          refine release_meets sep (by omega) there present ?_
          intro s' sep' shrunk
          refine onward s' sep' (n + 1) _ next (by omega) ?_
          rw [Nat.min_eq_left (by omega)]
          exact shrunk
        · rw [if_neg present]
          refine onward s sep (n + 1) _ next (by omega) ?_
          refine .nothing fun n' low' high' => ?_
          have same : n' = n := by omega
          rw [same]
          exact present
    · rw [if_neg inside]
      rw [reach] at inside
      rw [Nat.max_eq_left (by omega)]
      exact .pure_intro ⟨sep,.nothing fun n' low' high' => by omega⟩

theorem pgRoundUp_page {sz : UInt32} (low : sz.toNat ≤ 2147483648) : (pgRoundUp sz).toNat = 4096 * pages sz := by
  rw [toNat_pgRoundUp (by omega),pages]
  omega

theorem pages_mono {sz sz' : UInt32} (below : sz.toNat ≤ sz'.toNat) : pages sz ≤ pages sz' := by
  rw [pages,pages]
  omega

theorem deallocuvm_meets (sep : Separate k s d others) {oldsz newsz : UInt32} (low : oldsz.toNat ≤ 2147483648) (below : newsz < oldsz) :
    Meets (deallocuvm k d oldsz newsz) s
      (fun r s' => r = newsz ∧ Separate k s' d others ∧ Shrunk s s' d (pages newsz) (pages oldsz)) fun _ => False := by
  rw [UInt32.lt_iff_toNat_lt] at below
  have more := pages_mono below.le
  have fewer : ¬newsz ≥ oldsz := by
    rw [ge_iff_le,UInt32.le_iff_toNat_le]
    omega
  rw [deallocuvm,if_neg fewer]
  have loop := deallocLoop_meets sep oldsz low (oldsz.toNat / 4096 + 2) (pgRoundUp newsz) (pgRoundUp_page (by omega)) (by omega)
    (by rw [pages,pages]; omega)
  refine loop.bind ?_
  intro _ s' after
  rw [Nat.max_eq_right more] at after
  exact .pure_intro ⟨rfl,after⟩

/-- The pages from `lo` to `hi` were mapped to fresh pages of zeros; the pages of `hand` were taken too. -/
structure Filled (s s' : Machine) (d : UInt32) (lo hi : Nat) (hand : Set UInt32) : Prop where
  grown : Grown s s' d ({f | ∃ n, lo ≤ n ∧ n < hi ∧ pteAddr (pte s'.mem d n) = f} ∪ hand)
  hand : ∀ f ∈ hand, f ∈ s.free
  old : ∀ n < 1048576, ¬(lo ≤ n ∧ n < hi) → pte s'.mem d n = pte s.mem d n
  new : ∀ n, lo ≤ n → n < hi → ∃ f ∈ s.free, pte s'.mem d n = f ||| (pteW ||| pteU) ||| pteP ∧ s'.mem f = Bytes.zero 4096

/-- The user mappings are those of before; pages were used for tables and for `hand` only. -/
structure Restored (s s' : Machine) (d : UInt32) (hand : Set UInt32) : Prop where
  mapped : ∀ n < 1048576, Present (pte s.mem d n) → pte s'.mem d n = pte s.mem d n
  unmapped : ∀ n < 1048576, ¬Present (pte s.mem d n) → ¬Present (pte s'.mem d n)
  kept : ∀ i < 1024, ∀ t, tableAt s.mem d i = some t → tableAt s'.mem d i = some t
  free : ∀ f, f ∈ s.free ↔ f ∈ s'.free ∨ f ∈ hand ∨ ∃ i < 1024, tableAt s.mem d i = none ∧ tableAt s'.mem d i = some f
  mem : ∀ g, g ∉ s.free → ¬InTables s.mem d g → s'.mem g = s.mem g

variable {hand : Set UInt32} {oldsz newsz : UInt32}

theorem Filled.none (s : Machine) (d : UInt32) (n : Nat) : Filled s s d n n ∅ :=
  ⟨(Grown.refl s d).widen (Set.empty_subset _),fun _ never => never.elim,fun _ _ _ => rfl,fun _ low high => absurd low (by omega)⟩

theorem Filled.restored (sep : Separate k s d others) (filled : Filled s s' d lo mid hand) (shrunk : Shrunk s' s'' d lo hi)
    (above : mid ≤ hi) (bound : hi ≤ 524288) (clear : ∀ n, lo ≤ n → n < hi → ¬Present (pte s.mem d n)) : Restored s s'' d hand := by
  obtain ⟨freed,list,is⟩ := shrunk.free
  have entry (n : Nat) (low : lo ≤ n) (high : n < mid) : ∃ f ∈ s.free, pteAddr (pte s'.mem d n) = f ∧ Present (pte s'.mem d n) := by
    obtain ⟨f,taken,value,_⟩ := filled.new n low high
    refine ⟨f,taken,?_,?_⟩
    · rw [value,pteAddr_entry (sep.freeFrame f taken).aligned (by decide)]
    · rw [value]
      exact present_entry _ _
  have back (f : UInt32) (inside : f ∈ freed) : f ∈ s.free := by
    obtain ⟨n,low,high,present,address⟩ := (is f).mp inside
    by_cases early : n < mid
    · obtain ⟨f',taken,same,_⟩ := entry n low early
      rw [← address,same]
      exact taken
    · rw [filled.old n (by omega) (by omega)] at present
      exact absurd present (clear n low high)
  refine ⟨?_,?_,?_,?_,?_⟩
  · intro n inside present
    have outside : ¬(lo ≤ n ∧ n < hi) := fun range => clear n range.1 range.2 present
    rw [shrunk.entries n inside,if_neg (fun range => outside ⟨range.1,range.2.1⟩),filled.old n inside (by omega)]
  · intro n inside absent
    rw [shrunk.entries n inside]
    by_cases range : lo ≤ n ∧ n < hi ∧ Present (pte s'.mem d n)
    · rw [if_pos range]
      exact not_present_zero
    · rw [if_neg range]
      intro present
      by_cases early : lo ≤ n ∧ n < mid
      · exact range ⟨early.1,by omega,present⟩
      · rw [filled.old n inside early] at present
        exact absent present
  · intro i small t there
    rw [shrunk.tables]
    exact filled.grown.kept i small t there
  · intro f
    constructor
    · intro inside
      rcases filled.grown.used f inside with left | (⟨n,low,high,address⟩ | mine) | ⟨i,small,none,there⟩
      · exact .inl (shrunk.subset left)
      · obtain ⟨_,_,_,present⟩ := entry n low high
        refine .inl ?_
        rw [list]
        exact List.mem_append_left _ ((is f).mpr ⟨n,low,by omega,present,address⟩)
      · exact .inr (.inl mine)
      · exact .inr (.inr ⟨i,small,none,by rw [shrunk.tables]; exact there⟩)
    · rintro (inside | mine | ⟨i,small,none,there⟩)
      · rw [list] at inside
        rcases List.mem_append.mp inside with new | old
        · exact back f new
        · exact filled.grown.subset old
      · exact filled.hand f mine
      · rw [shrunk.tables] at there
        rcases filled.grown.tables i small f there with old | new
        · rw [none] at old
          cases old
        · exact new
  · intro g taken outside
    have away : g ∉ s''.free := by
      intro inside
      rw [list] at inside
      rcases List.mem_append.mp inside with new | old
      · exact taken (back g new)
      · exact taken (filled.grown.subset old)
    have outside' : ¬InTables s'.mem d g := by
      intro inside
      rcases filled.grown.inTables inside with old | new
      · exact outside old
      · exact taken new
    rw [shrunk.mem g outside' (.inl away),filled.grown.mem g taken outside]

theorem Restored.give (restored : Restored s s' d {f}) (outside : ¬InTables s'.mem d f)
    (list : s''.free = f :: s'.free) (same : ∀ g, g ≠ f → s''.mem g = s'.mem g) : Restored s s'' d ∅ := by
  have taken : f ∈ s.free := (restored.free f).mpr (.inr (.inl rfl))
  have kept (g : UInt32) (inside : InTables s'.mem d g) : s''.mem g = s'.mem g := same g fun here => outside (here ▸ inside)
  have tables (i : Nat) : tableAt s''.mem d i = tableAt s'.mem d i := tableAt_congr (kept d (.inl rfl))
  refine ⟨?_,?_,?_,?_,?_⟩
  · intro n inside present
    rw [pte_congr inside kept,restored.mapped n inside present]
  · intro n inside absent
    rw [pte_congr inside kept]
    exact restored.unmapped n inside absent
  · intro i small t there
    rw [tables]
    exact restored.kept i small t there
  · intro g
    rw [restored.free g,list,List.mem_cons]
    simp only [tables]
    constructor
    · rintro (left | here | new)
      · exact .inl (.inr left)
      · exact .inl (.inl here)
      · exact .inr (.inr new)
    · rintro ((here | left) | never | new)
      · exact .inr (.inl here)
      · exact .inl left
      · exact never.elim
      · exact .inr (.inr new)
  · intro g away notTable
    rw [same g fun here => away (here ▸ taken),restored.mem g away notTable]

theorem Filled.map (start : Separate k s d others) (filled : Filled s s' d lo n {f}) (mapped : Grown s' s'' d ∅) (taken : f ∈ s.free)
    (outside : ¬InTables s'.mem d f) (away : f ∉ s'.free) (zero : s'.mem f = Bytes.zero 4096) (below : lo ≤ n) (bound : n < 524288)
    (sep : Separate k s' d (insert f others))
    (entries : ∀ n' < 1048576, pte s''.mem d n' = if n' = n then f ||| (pteW ||| pteU) ||| pteP else pte s'.mem d n') :
    Filled s s'' d lo (n + 1) ∅ := by
  have earlier (n' : Nat) (high : n' < n) : pte s''.mem d n' = pte s'.mem d n' := by
    rw [entries n' (by omega),if_neg (by omega)]
  have last : pte s''.mem d n = f ||| (pteW ||| pteU) ||| pteP := by
    rw [entries n (by omega),if_pos rfl]
  have aligned (g : UInt32) (inside : g ∈ s.free) := (start.freeFrame g inside).aligned
  refine ⟨(filled.grown.trans mapped).widen ?_,fun _ never => never.elim,?_,?_⟩
  · rintro g ((⟨n',low',high',address⟩ | here) | never)
    · exact .inl ⟨n',low',by omega,by rw [earlier n' high']; exact address⟩
    · exact .inl ⟨n,below,by omega,by rw [last,pteAddr_entry (aligned f taken) (by decide)]; exact here.symm⟩
    · exact never.elim
  · intro n' inside range
    rw [entries n' inside,if_neg (by omega),filled.old n' inside (by omega)]
  · intro n' low' high'
    by_cases here : n' = n
    · refine ⟨f,taken,by rw [here]; exact last,?_⟩
      rw [mapped.mem f away outside,zero]
    · obtain ⟨g,free,value,blank⟩ := filled.new n' low' (by omega)
      have owned : Owns s'.mem d (.user n') g := by
        refine ⟨by omega,?_,?_⟩
        · rw [value]
          exact present_entry _ _
        · rw [value,pteAddr_entry (aligned g free) (by decide)]
      refine ⟨g,free,by rw [earlier n' (by omega)]; exact value,?_⟩
      rw [mapped.mem g (sep.taken _ _ owned) (sep.user_apart owned),blank]

/-- The indices of the page tables of the pages from `lo` to `hi`. -/
def tablesOf (lo hi : Nat) : Finset Nat := (Finset.Ico lo hi).image (· / 1024)

/-- The pages that mapping the pages from `lo` to `hi` takes: their own, and one for each table that is missing. -/
def demand (m : Memory) (d : UInt32) (lo hi : Nat) : Nat := hi - lo + ((tablesOf lo hi).filter fun i => tableAt m d i = none).card

theorem tablesOf_succ (above : lo ≤ n) : tablesOf lo (n + 1) = insert (n / 1024) (tablesOf lo n) := by
  rw [tablesOf,← Finset.insert_Ico_right_eq_Ico_add_one above,Finset.image_insert]
  rfl

theorem demand_none (m : Memory) (d : UInt32) (lo : Nat) : demand m d lo lo = 0 := by
  rw [demand,tablesOf,Finset.Ico_self]
  simp

theorem demand_succ (m : Memory) (d : UInt32) (above : lo ≤ n) :
    demand m d lo (n + 1) = demand m d lo n + 1 + if n / 1024 ∈ tablesOf lo n then 0 else tableCost m d (n / 1024) := by
  rw [demand,demand,tablesOf_succ above,Finset.filter_insert,tableCost]
  by_cases seen : n / 1024 ∈ tablesOf lo n
  · by_cases missing : tableAt m d (n / 1024) = none
    · rw [if_pos missing,if_pos seen,Finset.insert_eq_of_mem (Finset.mem_filter.mpr ⟨seen,missing⟩)]
      omega
    · rw [if_neg missing,if_pos seen]
      omega
  · rw [if_neg seen]
    by_cases missing : tableAt m d (n / 1024) = none
    · rw [if_pos missing,if_pos missing,Finset.card_insert_of_notMem fun inside => seen (Finset.mem_of_mem_filter _ inside)]
      omega
    · rw [if_neg missing,if_neg missing]
      omega

theorem demand_one (m : Memory) (d : UInt32) (n : Nat) : demand m d n (n + 1) = 1 + tableCost m d (n / 1024) := by
  rw [demand_succ m d le_rfl,demand_none,tablesOf,Finset.Ico_self,Finset.image_empty,if_neg (Finset.notMem_empty _)]

theorem demand_le (m : Memory) (d : UInt32) (more : lo ≤ n) (below : n ≤ hi) : demand m d lo n ≤ demand m d lo hi := by
  induction below with
  | refl => exact le_rfl
  | step below ih =>
    rw [demand_succ m d (more.trans below)]
    omega

/-- A page has one table. -/
theorem demand_le_double (m : Memory) (d : UInt32) (lo hi : Nat) : demand m d lo hi ≤ 2 * (hi - lo) := by
  have count := (Finset.card_filter_le (tablesOf lo hi) fun i => tableAt m d i = none).trans Finset.card_image_le
  rw [Nat.card_Ico] at count
  rw [demand]
  omega

/-- The pages from `lo` to `n` and their tables were paid for. -/
structure Spent (s s' : Machine) (d : UInt32) (lo n : Nat) : Prop where
  count : s.free.length = s'.free.length + demand s.mem d lo n
  tables : ∀ i, tableAt s'.mem d i = none ↔ tableAt s.mem d i = none ∧ i ∉ tablesOf lo n

theorem Spent.none (s : Machine) (d : UInt32) (lo : Nat) : Spent s s d lo lo := by
  refine ⟨by rw [demand_none]; rfl,?_⟩
  intro i
  rw [tablesOf,Finset.Ico_self,Finset.image_empty]
  simp

theorem Spent.cost (spent : Spent s s' d lo n) (above : lo ≤ n) :
    demand s.mem d lo (n + 1) = demand s.mem d lo n + 1 + tableCost s'.mem d (n / 1024) := by
  rw [demand_succ s.mem d above,tableCost,tableCost]
  have tables := spent.tables (n / 1024)
  by_cases seen : n / 1024 ∈ tablesOf lo n
  · rw [if_pos seen,if_neg fun missing => (tables.mp missing).2 seen]
  · simp only [tables,seen,not_false_eq_true,and_true,if_false]

theorem Spent.page (spent : Spent s s' d lo n) (above : lo ≤ n) (found : tableAt s''.mem d (n / 1024) = some t)
    (elsewhere : ∀ i, i ≠ n / 1024 → tableAt s''.mem d i = tableAt s'.mem d i)
    (count : s'.free.length = s''.free.length + 1 + tableCost s'.mem d (n / 1024)) : Spent s s'' d lo (n + 1) := by
  refine ⟨?_,?_⟩
  · rw [spent.cost above,spent.count,count]
    omega
  · intro i
    rw [tablesOf_succ above,Finset.mem_insert]
    by_cases here : i = n / 1024
    · rw [here,found]
      simp
    · rw [elsewhere i here,spent.tables i]
      simp only [here,false_or]

/-- A page is taken off the free list and cleared. -/
private theorem Filled.take (filled : Filled s s' d lo n ∅) (sep : Separate k s' d others) {rest : List UInt32}
    (list : s'.free = f :: rest) (low : n ≤ 524288) :
    Filled s ⟨update s'.mem f (Bytes.zero 4096),rest⟩ d lo n {f} := by
  have first : f ∈ s'.free := by
    rw [list]
    exact List.mem_cons_self
  have same (g : UInt32) (other : g ≠ f) : update s'.mem f (Bytes.zero 4096) g = s'.mem g := update_of_ne other _ _
  have kept (g : UInt32) (inside : InTables s'.mem d g) : update s'.mem f (Bytes.zero 4096) g = s'.mem g :=
    same g fun here => sep.inTables_free inside (here ▸ first)
  have took : Grown s' ⟨update s'.mem f (Bytes.zero 4096),rest⟩ d {f} := .take sep list rfl same
  refine ⟨(filled.grown.trans took).widen ?_,fun g here => here ▸ filled.grown.subset first,?_,?_⟩
  · rintro g ((⟨n',low',high',address⟩ | never) | here)
    · exact .inl ⟨n',low',high',by rw [pte_congr (by omega) kept]; exact address⟩
    · exact never.elim
    · exact .inr here
  · intro n' inside range
    rw [pte_congr inside kept,filled.old n' inside range]
  · intro n' low' high'
    obtain ⟨g,free,value,blank⟩ := filled.new n' low' high'
    refine ⟨g,free,by rw [pte_congr (by omega) kept]; exact value,?_⟩
    by_cases here : g = f
    · rw [here]
      exact update_self _ _ _
    · exact (same g here).trans blank

theorem allocLoop_meets (start : Separate k s d others) (sep : Separate k s' d others) (low : newsz.toNat < 2147483648)
    (clear : ∀ n, pages oldsz ≤ n → n < 524288 → ¬Present (pte s.mem d n)) (fuel : Nat) (a : UInt32) (page : a.toNat = 4096 * n)
    (above : pages oldsz ≤ n) (below : n ≤ pages newsz) (enough : pages newsz < n + fuel)
    (filled : Filled s s' d (pages oldsz) n ∅) (spent : Spent s s' d (pages oldsz) n) :
    Meets (allocLoop k d oldsz newsz fuel a) s'
      (fun r s'' => Separate k s'' d others ∧
        (r = newsz ∧ Filled s s'' d (pages oldsz) (pages newsz) ∅ ∧ Spent s s'' d (pages oldsz) (pages newsz) ∨
          r = 0 ∧ Restored s s'' d ∅ ∧ s.free.length < demand s.mem d (pages oldsz) (pages newsz))) fun _ => False := by
  have bound : pages newsz ≤ 524288 := by
    rw [pages]
    omega
  induction fuel generalizing s' a n with
  | zero => omega
  | succ fuel ih =>
    have reach : a < newsz ↔ n < pages newsz := by
      rw [UInt32.lt_iff_toNat_lt,page,pages]
      omega
    rw [allocLoop]
    by_cases inside : a < newsz
    · rw [if_pos inside]
      rw [reach] at inside
      have smaller : oldsz < newsz := by
        rw [UInt32.lt_iff_toNat_lt]
        rw [pages] at above
        rw [pages] at inside
        omega
      have clear' (n : Nat) (low : pages oldsz ≤ n) (high : n < pages newsz) : ¬Present (pte s.mem d n) := clear n low (by omega)
      have enough' := demand_le s.mem d (by omega : pages oldsz ≤ n + 1) inside
      have cost := spent.cost above
      have count := spent.count
      cases list : s'.free with
      | nil =>
        have full : kalloc s' = .ok (none,s') := by rw [kalloc,list]
        rw [list,List.length_nil] at count
        refine .step full ?_
        refine (deallocuvm_meets sep (by omega) smaller).bind ?_
        intro _ s'' after
        exact .pure_intro ⟨after.2.1,.inr ⟨rfl,filled.restored start after.2.2 below bound clear',by omega⟩⟩
      | cons f rest =>
        have head : kalloc s' = .ok (some f,{s' with free := rest}) := by rw [kalloc,list]
        have first : f ∈ s'.free := by
          rw [list]
          exact List.mem_cons_self
        have frame := sep.freeFrame f first
        have taken := filled.grown.subset first
        have held := sep.freeOwn f first
        have outside : ¬InTables s'.mem d f := fun inside => sep.inTables_free inside first
        -- the page is taken and cleared
        let s₁ : Machine := ⟨update s'.mem f (Bytes.zero 4096),rest⟩
        have same (g : UInt32) (other : g ≠ f) : s₁.mem g = s'.mem g := update_of_ne other _ _
        have kept (g : UInt32) (inside : InTables s'.mem d g) : s₁.mem g = s'.mem g := same g fun here => outside (here ▸ inside)
        have sep₁ : Separate k s₁ d (insert f others) := (sep.take list).congr kept rfl
        have outside₁ : ¬InTables s₁.mem d f := fun inside => sep₁.inTables_own inside (Set.mem_insert _ _)
        have filled₁ : Filled s s₁ d (pages oldsz) n {f} := filled.take sep list (by omega)
        refine .step head (.step (t := s₁) rfl ?_)
        have clear₁ : ¬Present (pte s₁.mem d n) := by
          rw [filled₁.old n (by omega) (by omega)]
          exact clear' n above inside
        have mapping : Meets (mappages d a pgSize f (pteW ||| pteU)) s₁ _ fun _ => False :=
          mappages_user sep₁ frame held page (by omega) clear₁ (by decide)
        refine mapping.bind ?_
        intro r s₂ after
        have tables₁ (i : Nat) : tableAt s₁.mem d i = tableAt s'.mem d i := tableAt_congr (kept d (.inl rfl))
        rcases after with ⟨failed,same₂,empty,missing⟩ | ⟨done,sep₂,mapped,entries,elsewhere,paid⟩
        · rw [failed,same₂,if_pos (by decide)]
          have last : rest = [] := empty
          rw [list,last,List.length_singleton] at count
          rw [tableCost,if_pos (tables₁ _ ▸ missing)] at cost
          refine (deallocuvm_meets sep₁ (by omega) smaller).bind ?_
          intro _ s₃ after
          obtain ⟨_,sep₃,shrunk⟩ := after
          have restored := filled₁.restored start shrunk below bound clear'
          have outside₃ : ¬InTables s₃.mem d f := fun inside => sep₃.inTables_own inside (Set.mem_insert _ _)
          obtain ⟨s₄,ran,list₄,same₄⟩ := kfree_run (s := s₃) frame
          refine .step ran (.pure_intro ⟨sep₃.give frame held same₄ list₄,.inr ⟨rfl,restored.give outside₃ list₄ same₄,by omega⟩⟩)
        · rw [done,if_neg (by decide)]
          have zero : s₁.mem f = Bytes.zero 4096 := update_self _ _ _
          have away : f ∉ s₁.free := fun inside => sep₁.freeOwn f inside (Set.mem_insert _ _)
          have filled₂ := filled₁.map start mapped taken outside₁ away zero above (by omega) sep₁ entries
          have next : (a + pgSize).toNat = 4096 * (n + 1) := by
            rw [toNat_next (by omega)]
            omega
          have spent₂ : Spent s s₂ d (pages oldsz) (n + 1) := by
            have entry := entries n (by omega)
            rw [if_pos rfl] at entry
            obtain ⟨t,found⟩ := present_table (entry ▸ present_entry _ _ : Present (pte s₂.mem d n))
            refine spent.page above found (fun i other => (elsewhere i other).trans (tables₁ i)) ?_
            have length : s₁.free.length = rest.length := rfl
            rw [tableCost,tables₁] at paid
            rw [list,List.length_cons,tableCost]
            omega
          exact ih sep₂ (a + pgSize) next (by omega) (by omega) (by omega) filled₂ spent₂
    · rw [if_neg inside]
      rw [reach] at inside
      have last : n = pages newsz := by omega
      exact .pure_intro ⟨sep,.inl ⟨rfl,last ▸ filled,last ▸ spent⟩⟩

theorem allocuvm_meets (sep : Separate k s d others) (order : oldsz.toNat ≤ newsz.toNat) (low : newsz.toNat < 2147483648)
    (clear : ∀ n, pages oldsz ≤ n → n < 524288 → ¬Present (pte s.mem d n)) :
    Meets (allocuvm k d oldsz newsz) s
      (fun r s' => Separate k s' d others ∧
        (r = newsz ∧ Filled s s' d (pages oldsz) (pages newsz) ∅ ∧ Spent s s' d (pages oldsz) (pages newsz) ∨
          r = 0 ∧ Restored s s' d ∅ ∧ s.free.length < demand s.mem d (pages oldsz) (pages newsz))) fun _ => False := by
  have base : kernBase.toNat = 2147483648 := rfl
  have user : ¬newsz ≥ kernBase := by
    rw [ge_iff_le,UInt32.le_iff_toNat_le,base]
    omega
  have grows : ¬newsz < oldsz := by
    rw [UInt32.lt_iff_toNat_lt]
    omega
  rw [allocuvm,if_neg user,if_neg grows]
  refine allocLoop_meets sep sep low clear _ _ (pgRoundUp_page (by omega)) le_rfl (pages_mono order) ?_ (Filled.none s d _) (.none s d _)
  rw [pages,pages]
  omega

end Xv6Ext2.Vm
