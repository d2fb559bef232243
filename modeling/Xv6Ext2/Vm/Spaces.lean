import Xv6Ext2.Vm.Words

/-! Address spaces. A page directory stands for the entries of its pages and owns its page tables and the pages of its user
mappings. `Separate` says that every page it owns has one role, is not free and belongs to nothing else; each elementary
change of memory keeps it. -/
namespace Xv6Ext2.Vm
open Lib Bio Function

abbrev Memory := UInt32 → Page

def pde (m : Memory) (d : UInt32) (i : Nat) : UInt32 := u32 (m d).byte (4 * i)

def tableAt (m : Memory) (d : UInt32) (i : Nat) : Option UInt32 :=
  if Present (pde m d i) then some (pteAddr (pde m d i)) else none

def pte (m : Memory) (d : UInt32) (n : Nat) : UInt32 :=
  match tableAt m d (n / 1024) with
  | some t => u32 (m t).byte (4 * (n % 1024))
  | none => 0

inductive Role where
  | dir
  | table (i : Nat)
  | user (n : Nat)
  deriving DecidableEq

def Owns (m : Memory) (d : UInt32) : Role → UInt32 → Prop
  | .dir, f => f = d
  | .table i, f => i < 1024 ∧ tableAt m d i = some f
  | .user n, f => n < 524288 ∧ Present (pte m d n) ∧ f = pteAddr (pte m d n)

def InTables (m : Memory) (d f : UInt32) : Prop := f = d ∨ ∃ i < 1024, tableAt m d i = some f

/-- The pages that `kfree` takes. -/
structure Linked.Frame (k : Linked) (f : UInt32) : Prop where
  aligned : f.toNat % 4096 = 0
  behind : ¬p2v f < k.kend
  below : f < physTop

structure Separate (k : Linked) (s : Machine) (d : UInt32) (others : Set UInt32) : Prop where
  apart : ∀ r r' f, Owns s.mem d r f → Owns s.mem d r' f → r = r'
  taken : ∀ r f, Owns s.mem d r f → f ∉ s.free
  own : ∀ r f, Owns s.mem d r f → f ∉ others
  frame : ∀ r f, Owns s.mem d r f → k.Frame f
  nodup : s.free.Nodup
  freeFrame : ∀ f ∈ s.free, k.Frame f
  freeOwn : ∀ f ∈ s.free, f ∉ others

section

variable {m m' : Memory} {d f t : UInt32} {i j n : Nat}

theorem pde_congr (same : m' d = m d) : pde m' d i = pde m d i := by rw [pde,pde,same]

theorem tableAt_congr (same : m' d = m d) : tableAt m' d i = tableAt m d i := by
  rw [tableAt,tableAt,pde_congr same]

theorem pte_table (there : tableAt m d (n / 1024) = some t) : pte m d n = u32 (m t).byte (4 * (n % 1024)) := by
  rw [pte,there]

theorem pte_missing (missing : tableAt m d (n / 1024) = none) : pte m d n = 0 := by
  rw [pte,missing]

theorem present_table (present : Present (pte m d n)) : ∃ t, tableAt m d (n / 1024) = some t := by
  cases there : tableAt m d (n / 1024) with
  | none =>
    rw [pte_missing there] at present
    exact absurd present not_present_zero
  | some t => exact ⟨t,rfl⟩

theorem pte_congr (inside : n < 1048576) (same : ∀ f, InTables m d f → m' f = m f) : pte m' d n = pte m d n := by
  have tables : tableAt m' d (n / 1024) = tableAt m d (n / 1024) := tableAt_congr (same d (.inl rfl))
  cases there : tableAt m d (n / 1024) with
  | none => rw [pte_missing there,pte_missing (tables.trans there)]
  | some t => rw [pte_table there,pte_table (tables.trans there),same t (.inr ⟨n / 1024,by omega,there⟩)]

theorem owns_congr (same : ∀ f, InTables m d f → m' f = m f) (r : Role) : Owns m' d r f ↔ Owns m d r f := by
  cases r with
  | dir => exact Iff.rfl
  | table i => rw [Owns,Owns,tableAt_congr (same d (.inl rfl))]
  | user n =>
    by_cases inside : n < 524288
    · rw [Owns,Owns,pte_congr (by omega) same]
    · simp only [Owns,inside,false_and]

theorem InTables.owned (inside : InTables m d f) : ∃ r, (∀ n, r ≠ .user n) ∧ Owns m d r f := by
  rcases inside with here | there
  · exact ⟨.dir,by simp,here⟩
  · obtain ⟨i,small,there⟩ := there
    exact ⟨.table i,by simp,small,there⟩

theorem pte_store (there : tableAt m d i = some t) (low : j < 1024) (other : t ≠ d)
    (alone : ∀ i' < 1024, tableAt m d i' = some t → i' = i) (w : UInt32) (inside : n < 1048576) :
    pte (update m t ((m t).setU32 (4 * j) w)) d n = if n = 1024 * i + j then w else pte m d n := by
  have tables : tableAt (update m t ((m t).setU32 (4 * j) w)) d (n / 1024) = tableAt m d (n / 1024) :=
    tableAt_congr (update_of_ne (Ne.symm other) _ _)
  cases found : tableAt m d (n / 1024) with
  | none =>
    have elsewhere : n ≠ 1024 * i + j := by
      intro here
      have index : n / 1024 = i := by omega
      rw [index,there] at found
      cases found
    rw [pte_missing found,pte_missing (tables.trans found),if_neg elsewhere]
  | some t' =>
    rw [pte_table found,pte_table (tables.trans found)]
    by_cases same : t' = t
    · have index := alone (n / 1024) (by omega) (same ▸ found)
      rw [same,update_self,Bytes.u32_setU32_word _ _ _ _ (by omega)]
      by_cases here : n % 1024 = j
      · rw [if_pos here,if_pos (by omega)]
      · rw [if_neg here,if_neg (by omega)]
    · have elsewhere : n ≠ 1024 * i + j := by
        intro here
        have index : n / 1024 = i := by omega
        rw [index,there] at found
        exact same (Option.some.inj found).symm
      rw [update_of_ne same,if_neg elsewhere]

/-- The memory after `walkpgdir` made a table. -/
def withTable (m : Memory) (d : UInt32) (i : Nat) (f : UInt32) : Memory :=
  update (update m f (Bytes.zero 4096)) d
    ((update m f (Bytes.zero 4096) d).setU32 (4 * i) (f ||| pteP ||| pteW ||| pteU))

theorem tableEntry_eq (f : UInt32) : f ||| pteP ||| pteW ||| pteU = f ||| (pteW ||| pteU) ||| pteP := by
  simp only [UInt32.or_assoc]
  rfl

theorem tableAt_withTable (other : f ≠ d) (aligned : f.toNat % 4096 = 0) (small : i < 1024) :
    tableAt (withTable m d i f) d j = if j = i then some f else tableAt m d j := by
  have entry : pde (withTable m d i f) d j = if j = i then f ||| pteP ||| pteW ||| pteU else pde m d j := by
    rw [pde,withTable,update_self,Bytes.u32_setU32_word _ _ _ _ (by omega),update_of_ne (Ne.symm other)]
    rfl
  by_cases here : j = i
  · rw [if_pos here] at entry
    rw [if_pos here,tableAt,entry,tableEntry_eq,if_pos (present_entry _ _),pteAddr_entry aligned (by decide)]
  · rw [if_neg here] at entry
    rw [if_neg here,tableAt,entry,tableAt]

theorem withTable_of_ne (other : t ≠ f) (outside : t ≠ d) : withTable m d i f t = m t := by
  rw [withTable,update_of_ne outside,update_of_ne other]

theorem pte_withTable (other : f ≠ d) (aligned : f.toNat % 4096 = 0) (small : i < 1024) (missing : tableAt m d i = none)
    (fresh : ¬InTables m d f) (apart : ∀ i < 1024, tableAt m d i ≠ some d) (inside : n < 1048576) :
    pte (withTable m d i f) d n = pte m d n := by
  have tables := tableAt_withTable (m := m) (j := n / 1024) other aligned small
  by_cases here : n / 1024 = i
  · rw [if_pos here] at tables
    have blank : withTable m d i f f = Bytes.zero 4096 := by
      rw [withTable,update_of_ne other,update_self]
    rw [pte_table tables,blank,Bytes.u32_zeroed,pte_missing (here ▸ missing)]
  · rw [if_neg here] at tables
    cases found : tableAt m d (n / 1024) with
    | none => rw [pte_missing found,pte_missing (tables.trans found)]
    | some t =>
      have notNew : t ≠ f := fun same => fresh (.inr ⟨n / 1024,by omega,same ▸ found⟩)
      have notDir : t ≠ d := fun same => apart (n / 1024) (by omega) (same ▸ found)
      rw [pte_table found,pte_table (tables.trans found),withTable_of_ne notNew notDir]

end

section

variable {k : Linked} {s : Machine} {d f g t : UInt32} {others : Set UInt32} {i j n : Nat}

namespace Separate

theorem dir_free (sep : Separate k s d others) : d ∉ s.free := sep.taken .dir d rfl

theorem table_ne_dir (sep : Separate k s d others) (small : i < 1024) : tableAt s.mem d i ≠ some d := by
  intro there
  cases sep.apart (.table i) .dir d ⟨small,there⟩ rfl

theorem table_alone (sep : Separate k s d others) (small : i < 1024) (small' : j < 1024) (there : tableAt s.mem d i = some t)
    (there' : tableAt s.mem d j = some t) : j = i := by
  have same := sep.apart (.table j) (.table i) t ⟨small',there'⟩ ⟨small,there⟩
  injection same

theorem inTables_free (sep : Separate k s d others) (inside : InTables s.mem d f) : f ∉ s.free := by
  obtain ⟨r,_,owned⟩ := inside.owned
  exact sep.taken r f owned

theorem inTables_own (sep : Separate k s d others) (inside : InTables s.mem d f) : f ∉ others := by
  obtain ⟨r,_,owned⟩ := inside.owned
  exact sep.own r f owned

theorem user_apart (sep : Separate k s d others) (owned : Owns s.mem d (.user n) f) : ¬InTables s.mem d f := by
  intro inside
  obtain ⟨r,different,mine⟩ := inside.owned
  exact different n (sep.apart r (.user n) f mine owned)

theorem congr (sep : Separate k s d others) {s' : Machine} (same : ∀ f, InTables s.mem d f → s'.mem f = s.mem f)
    (list : s'.free = s.free) : Separate k s' d others where
  apart r r' f owned owned' := sep.apart r r' f ((owns_congr same r).mp owned) ((owns_congr same r').mp owned')
  taken r f owned := list ▸ sep.taken r f ((owns_congr same r).mp owned)
  own r f owned := sep.own r f ((owns_congr same r).mp owned)
  frame r f owned := sep.frame r f ((owns_congr same r).mp owned)
  nodup := list ▸ sep.nodup
  freeFrame := list ▸ sep.freeFrame
  freeOwn := list ▸ sep.freeOwn

theorem take (sep : Separate k s d others) {rest : List UInt32} (head : s.free = f :: rest) :
    Separate k {s with free := rest} d (insert f others) where
  apart := sep.apart
  taken r g owned inside := sep.taken r g owned (by rw [head]; exact List.mem_cons_of_mem _ inside)
  own r g owned inside := by
    rcases inside with here | there
    · exact sep.taken r g owned (by rw [head,here]; exact List.mem_cons_self)
    · exact sep.own r g owned there
  frame := sep.frame
  nodup := by
    have nodup := sep.nodup
    rw [head] at nodup
    exact (List.nodup_cons.mp nodup).2
  freeFrame g inside := sep.freeFrame g (by rw [head]; exact List.mem_cons_of_mem _ inside)
  freeOwn g inside there := by
    have nodup := sep.nodup
    rw [head] at nodup
    rcases there with here | there
    · exact (List.nodup_cons.mp nodup).1 (here ▸ inside)
    · exact sep.freeOwn g (by rw [head]; exact List.mem_cons_of_mem _ inside) there

theorem give (sep : Separate k s d (insert f others)) (frame : k.Frame f) (held : f ∉ others) {s' : Machine}
    (same : ∀ g, g ≠ f → s'.mem g = s.mem g) (list : s'.free = f :: s.free) : Separate k s' d others := by
  have outside : ¬InTables s.mem d f := fun inside => sep.inTables_own inside (Set.mem_insert _ _)
  have kept : ∀ g, InTables s.mem d g → s'.mem g = s.mem g := by
    intro g inside
    exact same g fun here => outside (here ▸ inside)
  have mine (r : Role) (g : UInt32) (owned : Owns s'.mem d r g) : Owns s.mem d r g := (owns_congr kept r).mp owned
  refine ⟨fun r r' g owned owned' => sep.apart r r' g (mine r g owned) (mine r' g owned'),?_,?_,?_,?_,?_,?_⟩
  · intro r g owned inside
    rw [list] at inside
    rcases List.mem_cons.mp inside with here | there
    · exact sep.own r g (mine r g owned) (here ▸ Set.mem_insert _ _)
    · exact sep.taken r g (mine r g owned) there
  · intro r g owned there
    exact sep.own r g (mine r g owned) (Set.mem_insert_of_mem _ there)
  · intro r g owned
    exact sep.frame r g (mine r g owned)
  · rw [list]
    exact List.nodup_cons.mpr ⟨fun inside => sep.freeOwn f inside (Set.mem_insert _ _),sep.nodup⟩
  · intro g inside
    rw [list] at inside
    rcases List.mem_cons.mp inside with here | there
    · exact here ▸ frame
    · exact sep.freeFrame g there
  · intro g inside there
    rw [list] at inside
    rcases List.mem_cons.mp inside with here | inside
    · exact held (here ▸ there)
    · exact sep.freeOwn g inside (Set.mem_insert_of_mem _ there)

theorem withTable (sep : Separate k s d (insert f others)) (frame : k.Frame f) (held : f ∉ others) (small : i < 1024)
    (missing : tableAt s.mem d i = none) : Separate k {s with mem := Vm.withTable s.mem d i f} d others := by
  have outside : ¬InTables s.mem d f := fun inside => sep.inTables_own inside (Set.mem_insert _ _)
  have other : f ≠ d := fun same => outside (.inl same)
  have mine (r : Role) (g : UInt32) (owned : Owns (Vm.withTable s.mem d i f) d r g) :
      Owns s.mem d r g ∨ r = .table i ∧ g = f := by
    cases r with
    | dir => exact .inl owned
    | table j =>
      obtain ⟨low,there⟩ := owned
      rw [tableAt_withTable other frame.aligned small] at there
      by_cases here : j = i
      · rw [if_pos here] at there
        exact .inr ⟨by rw [here],(Option.some.inj there).symm⟩
      · rw [if_neg here] at there
        exact .inl ⟨low,there⟩
    | user n =>
      obtain ⟨low,present,is⟩ := owned
      rw [pte_withTable other frame.aligned small missing outside (fun i small => sep.table_ne_dir small) (by omega)] at present is
      exact .inl ⟨low,present,is⟩
  have new (r : Role) (owned : Owns s.mem d r f) : False := sep.own r f owned (Set.mem_insert _ _)
  refine ⟨?_,?_,?_,?_,sep.nodup,sep.freeFrame,fun g inside there => sep.freeOwn g inside (Set.mem_insert_of_mem _ there)⟩
  · intro r r' g owned owned'
    rcases mine r g owned with old | ⟨role,is⟩
    · rcases mine r' g owned' with old' | ⟨role',is'⟩
      · exact sep.apart r r' g old old'
      · exact absurd (is' ▸ old) (new r)
    · rcases mine r' g owned' with old' | ⟨role',is'⟩
      · exact absurd (is ▸ old') (new r')
      · rw [role,role']
  · intro r g owned inside
    rcases mine r g owned with old | ⟨_,is⟩
    · exact sep.taken r g old inside
    · exact sep.freeOwn f (is ▸ inside) (Set.mem_insert _ _)
  · intro r g owned there
    rcases mine r g owned with old | ⟨_,is⟩
    · exact sep.own r g old (Set.mem_insert_of_mem _ there)
    · exact held (is ▸ there)
  · intro r g owned
    rcases mine r g owned with old | ⟨_,is⟩
    · exact sep.frame r g old
    · exact is ▸ frame

end Separate

def stored (m : Memory) (t : UInt32) (n : Nat) (w : UInt32) : Memory :=
  update m t ((m t).setU32 (4 * (n % 1024)) w)

theorem stored_of_ne {m : Memory} {w : UInt32} (other : g ≠ t) : stored m t n w g = m g := update_of_ne other _ _

namespace Separate

variable {w : UInt32}

theorem tableAt_stored (sep : Separate k s d others) (there : tableAt s.mem d (n / 1024) = some t) (inside : n < 1048576) (i : Nat) :
    tableAt (stored s.mem t n w) d i = tableAt s.mem d i := by
  have other : t ≠ d := fun same => sep.table_ne_dir (by omega) (same ▸ there)
  exact tableAt_congr (stored_of_ne (Ne.symm other))

theorem pte_stored (sep : Separate k s d others) (there : tableAt s.mem d (n / 1024) = some t) (inside : n < 1048576) {n' : Nat}
    (inside' : n' < 1048576) : pte (stored s.mem t n w) d n' = if n' = n then w else pte s.mem d n' := by
  have other : t ≠ d := fun same => sep.table_ne_dir (by omega) (same ▸ there)
  have alone (j : Nat) (small : j < 1024) (also : tableAt s.mem d j = some t) : j = n / 1024 :=
    sep.table_alone (by omega) small there also
  have index : 1024 * (n / 1024) + n % 1024 = n := Nat.div_add_mod n 1024
  rw [stored,pte_store there (Nat.mod_lt _ (by decide)) other alone w inside',index]

theorem owns_stored (sep : Separate k s d others) (there : tableAt s.mem d (n / 1024) = some t) (inside : n < 1048576) {r : Role}
    (owned : Owns (stored s.mem t n w) d r g) :
    r ≠ .user n ∧ Owns s.mem d r g ∨ r = .user n ∧ n < 524288 ∧ Present w ∧ g = pteAddr w := by
  cases r with
  | dir => exact .inl ⟨by simp,owned⟩
  | table i =>
    rw [Owns,sep.tableAt_stored there inside] at owned
    exact .inl ⟨by simp,owned⟩
  | user n' =>
    obtain ⟨low,present,is⟩ := owned
    rw [sep.pte_stored there inside (by omega)] at present is
    by_cases here : n' = n
    · rw [if_pos here] at present is
      exact .inr ⟨by rw [here],here ▸ low,present,is⟩
    · rw [if_neg here] at present is
      exact .inl ⟨by simpa using here,low,present,is⟩

theorem store (sep : Separate k s d others) (there : tableAt s.mem d (n / 1024) = some t) (inside : n < 1048576)
    {others' : Set UInt32} (old : ∀ r g, r ≠ .user n → Owns s.mem d r g → g ∉ others') (free : ∀ g ∈ s.free, g ∉ others')
    (new : n < 524288 → Present w → pteAddr w ∉ s.free ∧ pteAddr w ∉ others' ∧ k.Frame (pteAddr w) ∧
      ∀ r, r ≠ .user n → ¬Owns s.mem d r (pteAddr w)) :
    Separate k {s with mem := stored s.mem t n w} d others' := by
  refine ⟨?_,?_,?_,?_,sep.nodup,sep.freeFrame,free⟩
  · intro r r' g owned owned'
    rcases sep.owns_stored there inside owned with ⟨other,was⟩ | ⟨role,low,present,is⟩
    · rcases sep.owns_stored there inside owned' with ⟨other',was'⟩ | ⟨role',low',present',is'⟩
      · exact sep.apart r r' g was was'
      · exact absurd (is' ▸ was) ((new low' present').2.2.2 r other)
    · rcases sep.owns_stored there inside owned' with ⟨other',was'⟩ | ⟨role',_⟩
      · exact absurd (is ▸ was') ((new low present).2.2.2 r' other')
      · rw [role,role']
  · intro r g owned
    rcases sep.owns_stored there inside owned with ⟨_,was⟩ | ⟨_,low,present,is⟩
    · exact sep.taken r g was
    · exact is ▸ (new low present).1
  · intro r g owned
    rcases sep.owns_stored there inside owned with ⟨other,was⟩ | ⟨_,low,present,is⟩
    · exact old r g other was
    · exact is ▸ (new low present).2.1
  · intro r g owned
    rcases sep.owns_stored there inside owned with ⟨_,was⟩ | ⟨_,low,present,is⟩
    · exact sep.frame r g was
    · exact is ▸ (new low present).2.2.1

theorem map (sep : Separate k s d (insert f others)) (frame : k.Frame f) (held : f ∉ others)
    (there : tableAt s.mem d (n / 1024) = some t) (inside : n < 1048576) {perm : UInt32} (flags : perm.toNat < 4096) :
    Separate k {s with mem := stored s.mem t n (f ||| perm ||| pteP)} d others := by
  refine sep.store there inside ?_ ?_ ?_
  · intro r g _ owned there
    exact sep.own r g owned (Set.mem_insert_of_mem _ there)
  · intro g inside there
    exact sep.freeOwn g inside (Set.mem_insert_of_mem _ there)
  · intro _ _
    rw [pteAddr_entry frame.aligned flags]
    exact ⟨fun inside => sep.freeOwn f inside (Set.mem_insert _ _),held,frame,fun r _ owned => sep.own r f owned (Set.mem_insert _ _)⟩

theorem mapKernel (sep : Separate k s d others) (there : tableAt s.mem d (n / 1024) = some t) (inside : n < 1048576)
    (high : 524288 ≤ n) : Separate k {s with mem := stored s.mem t n w} d others :=
  sep.store there inside (fun r g _ owned => sep.own r g owned) sep.freeOwn fun low => absurd low (by omega)

theorem unmap (sep : Separate k s d others) (owned : Owns s.mem d (.user n) f) (there : tableAt s.mem d (n / 1024) = some t) :
    Separate k {s with mem := stored s.mem t n 0} d (insert f others) := by
  have low : n < 524288 := owned.1
  refine sep.store there (by omega) ?_ ?_ fun _ present => absurd present not_present_zero
  · intro r g other mine inside
    rcases inside with here | there
    · exact other (sep.apart r (.user n) f (here ▸ mine) owned)
    · exact sep.own r g mine there
  · intro g free inside
    rcases inside with here | there
    · exact sep.taken (.user n) f owned (here ▸ free)
    · exact sep.freeOwn g free there

end Separate

theorem tableAt_blank (m : Memory) (d : UInt32) (blank : m d = Bytes.zero 4096) (i : Nat) : tableAt m d i = none := by
  rw [tableAt,pde,blank,Bytes.u32_zeroed,if_neg not_present_zero]

theorem owns_blank {m : Memory} {r : Role} (blank : m d = Bytes.zero 4096) (owned : Owns m d r f) : r = .dir ∧ f = d := by
  cases r with
  | dir => exact ⟨rfl,owned⟩
  | table i =>
    have there := owned.2
    rw [tableAt_blank m d blank] at there
    cases there
  | user n =>
    have present := owned.2.1
    rw [pte_missing (tableAt_blank m d blank _)] at present
    exact absurd present not_present_zero

theorem separate_blank (blank : s.mem d = Bytes.zero 4096) (frame : k.Frame d) (taken : d ∉ s.free) (own : d ∉ others)
    (nodup : s.free.Nodup) (freeFrame : ∀ f ∈ s.free, k.Frame f) (freeOwn : ∀ f ∈ s.free, f ∉ others) : Separate k s d others where
  apart _ _ _ owned owned' := (owns_blank blank owned).1.trans (owns_blank blank owned').1.symm
  taken _ _ owned := (owns_blank blank owned).2 ▸ taken
  own _ _ owned := (owns_blank blank owned).2 ▸ own
  frame _ _ owned := (owns_blank blank owned).2 ▸ frame
  nodup := nodup
  freeFrame := freeFrame
  freeOwn := freeOwn

end

end Xv6Ext2.Vm
