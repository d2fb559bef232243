import Xv6Ext2.Vm.Grow

/-! `copyout`. It translates page by page; the translation of a page whose table is missing is read through a null pointer. -/
namespace Xv6Ext2.Vm
open Lib Bio Function

def address (va : UInt32) (i : Nat) : Nat := (va.toNat + i) % 4294967296

def Reach (m : Memory) (d : UInt32) (n : Nat) : Prop := Present (pte m d n) ∧ User (pte m d n)

instance (m : Memory) (d : UInt32) (n : Nat) : Decidable (Reach m d n) := inferInstanceAs (Decidable (_ ∧ _))

def target (m : Memory) (d va : UInt32) (i : Nat) : UInt32 := pteAddr (pte m d (address va i / 4096))

/-- The bytes `p` were written to the range, except where a later one lands on the same byte, and nothing else was. -/
structure Copied (m : Memory) (s s' : Machine) (d va : UInt32) (p : Nat → UInt8) (len : Nat) : Prop where
  bytes : ∀ i < len, (∀ j, i < j → j < len → (target m d va j,address va j % 4096) ≠ (target m d va i,address va i % 4096)) →
    (s'.mem (target m d va i)).byte (address va i % 4096) = p i
  rest : ∀ g o, (∀ i < len, (g,o) ≠ (target m d va i,address va i % 4096)) → (s'.mem g).byte o = (s.mem g).byte o

/-- How `copyout` ends, in a directory with the tables of `m`. -/
structure Copyout (m : Memory) (s s' : Machine) (d va : UInt32) (p : Nat → UInt8) (len : Nat) (r : Int) : Prop where
  free : s'.free = s.free
  result : r = 0 ∨ r = -1
  exact : r = 0 ↔ ∀ i < len, Reach m d (address va i / 4096)
  copied : r = 0 → Copied m s s' d va p len
  confined : ∀ g, (∀ i < len, Reach m d (address va i / 4096) → g ≠ target m d va i) → s'.mem g = s.mem g

/-- The first page that cannot be reached has a table. -/
def Tabled (m : Memory) (d va : UInt32) (len : Nat) : Prop :=
  ∀ i < len, (∀ j < i, Reach m d (address va j / 4096)) → ∃ t, tableAt m d (address va i / 4096 / 1024) = some t

/-- No page of the range holds tables of the directory. -/
def Plain (m : Memory) (d va : UInt32) (len : Nat) : Prop :=
  ∀ i < len, Reach m d (address va i / 4096) → ¬InTables m d (target m d va i)

variable {m : Memory} {s s' s'' : Machine} {d va : UInt32} {p : Nat → UInt8} {len n i j : Nat} {r : Int}

theorem address_lt (va : UInt32) (i : Nat) : address va i < 4294967296 := Nat.mod_lt _ (by decide)

theorem address_first (inside : va.toNat % 4096 + i < 4096) : address va i = va.toNat + i := by
  have bound := va.toNat_lt
  exact Nat.mod_eq_of_lt (by omega)

theorem address_next (va : UInt32) (j : Nat) : address va (4096 - va.toNat % 4096 + j) = address (pgRoundDown va + pgSize) j := by
  have size : pgSize.toNat = 4096 := rfl
  rw [address,address,UInt32.toNat_add,toNat_pgRoundDown,size]
  omega

theorem uva2ka_table {t : UInt32} (null : Option UInt32) (same : ∀ g, InTables m d g → s.mem g = m g) (page : va.toNat = 4096 * n)
    (there : tableAt m d (n / 1024) = some t) :
    uva2ka null d va s = .ok (if Reach m d n then some (pteAddr (pte m d n)) else none,s) := by
  have bound := va.toNat_lt
  have number : va.toNat / 4096 = n := by omega
  have tables : tableAt s.mem d (n / 1024) = some t := (tableAt_congr (same d (.inl rfl))).trans there
  have read : word t (n % 1024) s = .ok (pte m d n,s) := by
    rw [← pte_congr (by omega) same,pte_table tables]
    rfl
  rw [uva2ka,bind_ok (walk_present (by rw [number]; exact tables) false),number]
  dsimp only
  rw [bind_ok read]
  by_cases present : Present (pte m d n)
  · by_cases user : User (pte m d n)
    · have reach : Reach m d n := ⟨present,user⟩
      rw [if_neg (not_not.mpr present),if_neg (not_not.mpr user),if_pos reach]
      rfl
    · have barred : ¬Reach m d n := fun both => user both.2
      rw [if_neg (not_not.mpr present),if_pos user,if_neg barred]
      rfl
  · have barred : ¬Reach m d n := fun both => present both.1
    rw [if_pos present,if_neg barred]
    rfl

theorem uva2ka_missing (same : ∀ g, InTables m d g → s.mem g = m g) (page : va.toNat = 4096 * n)
    (missing : tableAt m d (n / 1024) = none) : uva2ka none d va s = .error .dangling := by
  have bound := va.toNat_lt
  have number : va.toNat / 4096 = n := by omega
  have tables : tableAt s.mem d (n / 1024) = none := (tableAt_congr (same d (.inl rfl))).trans missing
  rw [uva2ka,bind_ok (walk_missing (by rw [number]; exact tables))]
  rfl

theorem Copyout.done (m : Memory) (s : Machine) (d va : UInt32) (p : Nat → UInt8) : Copyout m s s d va p 0 0 :=
  ⟨rfl,.inl rfl,⟨fun _ i none => absurd none (by omega),fun _ => rfl⟩,
    fun _ => ⟨fun i none => absurd none (by omega),fun _ _ _ => rfl⟩,fun _ _ => rfl⟩

theorem Copyout.refused (some : 0 < len) (barred : ¬Reach m d (address va 0 / 4096)) : Copyout m s s d va p len (-1) :=
  ⟨rfl,.inr rfl,⟨fun no => absurd no (by decide),fun all => absurd (all 0 some) barred⟩,fun no => absurd no (by decide),
    fun _ _ => rfl⟩

def wrote (m : Memory) (s : Machine) (d va : UInt32) (n : Nat) (p : Nat → UInt8) : Machine :=
  ⟨update s.mem (pteAddr (pte m d (va.toNat / 4096)))
    ((s.mem (pteAddr (pte m d (va.toNat / 4096)))).patch (va.toNat % 4096) n p),s.free⟩

theorem Copyout.page {va' : UInt32} {rest : Nat} (reach : Reach m d (va.toNat / 4096)) (inside : va.toNat % 4096 + n ≤ 4096)
    (some : 0 < n) (next : ∀ j < rest, address va (n + j) = address va' j)
    (after : Copyout m (wrote m s d va n p) s' d va' (fun j => p (n + j)) rest r) :
    Copyout m s s' d va p (n + rest) r := by
  have first (i : Nat) (small : i < n) : address va i / 4096 = va.toNat / 4096 ∧ address va i % 4096 = va.toNat % 4096 + i := by
    rw [address_first (by omega)]
    omega
  have split (i : Nat) (low : i < n + rest) (high : ¬i < n) : ∃ j < rest, i = n + j := ⟨i - n,by omega,by omega⟩
  have place (i : Nat) (small : i < n) : target m d va i = pteAddr (pte m d (va.toNat / 4096)) := by
    rw [target,(first i small).1]
  have later (j : Nat) (low : j < rest) : target m d va (n + j) = target m d va' j := by
    rw [target,target,next j low]
  rw [wrote] at after
  generalize frame : pteAddr (pte m d (va.toNat / 4096)) = f at *
  refine ⟨after.free,after.result,?_,?_,?_⟩
  · rw [after.exact]
    constructor
    · intro all i low
      by_cases small : i < n
      · rw [(first i small).1]
        exact reach
      · obtain ⟨j,low',is⟩ := split i low small
        rw [is,next j low']
        exact all j low'
    · intro all j low
      rw [← next j low]
      exact all (n + j) (by omega)
  · intro zero
    obtain ⟨bytes,kept⟩ := after.copied zero
    refine ⟨?_,?_⟩
    · intro i low last
      by_cases small : i < n
      · have untouched : ∀ j < rest, (target m d va i,address va i % 4096) ≠ (target m d va' j,address va' j % 4096) := by
          intro j low'
          rw [← later j low',← next j low']
          exact fun same => last (n + j) (by omega) (by omega) same.symm
        rw [kept _ _ untouched,place i small,(first i small).2]
        dsimp only
        rw [update_self]
        exact Bytes.byte_patch_inside _ _ _ _ i small inside
      · obtain ⟨j,low',is⟩ := split i low small
        rw [is] at last
        rw [is,later j low',next j low']
        refine bytes j low' ?_
        intro j' above low''
        rw [← later j' low'',← next j' low'',← later j low',← next j low']
        exact last (n + j') (by omega) (by omega)
    · intro g o outside
      have untouched : ∀ j < rest, (g,o) ≠ (target m d va' j,address va' j % 4096) := by
        intro j low
        rw [← later j low,← next j low]
        exact outside (n + j) (by omega)
      rw [kept g o untouched]
      dsimp only
      by_cases here : g = f
      · rw [here,update_self]
        refine Bytes.byte_patch_outside _ _ _ _ _ ?_
        by_contra within
        have small : o - va.toNat % 4096 < n := by omega
        refine outside (o - va.toNat % 4096) (by omega) ?_
        rw [place _ small,(first _ small).2,here]
        congr 1
        omega
      · rw [update_of_ne here]
  · intro g outside
    have untouched : ∀ j < rest, Reach m d (address va' j / 4096) → g ≠ target m d va' j := by
      intro j low barred
      rw [← later j low]
      rw [← next j low] at barred
      exact outside (n + j) (by omega) barred
    have away : g ≠ f := by
      rw [← place 0 some]
      exact outside 0 (by omega) (by rw [(first 0 some).1]; exact reach)
    rw [after.confined g untouched]
    exact update_of_ne away _ _

theorem address_zero (va : UInt32) : address va 0 = va.toNat := by
  rw [address_first (by omega)]
  omega

theorem wrote_tables (plain : Plain m d va len) (more : 0 < len) (reach : Reach m d (va.toNat / 4096))
    (same : ∀ g, InTables m d g → s.mem g = m g) : ∀ g, InTables m d g → (wrote m s d va n p).mem g = m g := by
  intro g table
  have outside : ¬InTables m d (target m d va 0) := plain 0 more (by rw [address_zero]; exact reach)
  rw [target,address_zero] at outside
  have away : g ≠ pteAddr (pte m d (va.toNat / 4096)) := fun here => outside (here ▸ table)
  rw [← same g table]
  exact update_of_ne away _ _

theorem copyoutLoop_round (null : Option UInt32) (fuel : Nat) (buf : Nat → UInt8) (len : UInt32) (more : len > 0) {pa : Option UInt32}
    (translated : uva2ka null d (pgRoundDown va) s = .ok (pa,s)) :
    ∃ k : UInt32, k.toNat = min (4096 - va.toNat % 4096) len.toNat ∧ (len - k).toNat = len.toNat - k.toNat ∧
      copyoutLoop null d (fuel + 1) va buf len s = pa.elim (.ok (-1,s)) fun pa =>
        copyoutLoop null d fuel (pgRoundDown va + pgSize) (fun i => buf (k.toNat + i)) (len - k)
          ⟨update s.mem pa ((s.mem pa).patch (va.toNat % 4096) k.toNat buf),s.free⟩ := by
  have size : pgSize.toNat = 4096 := rfl
  have bound := va.toNat_lt
  have bound' := len.toNat_lt
  have down : (pgRoundDown va).toNat = 4096 * (va.toNat / 4096) := by
    rw [toNat_pgRoundDown]
    omega
  have offset : (va - pgRoundDown va).toNat = va.toNat % 4096 := by
    rw [UInt32.toNat_sub,down]
    omega
  have left : (pgSize - (va - pgRoundDown va)).toNat = 4096 - va.toNat % 4096 := by
    rw [UInt32.toNat_sub,offset,size]
    omega
  let k : UInt32 := if pgSize - (va - pgRoundDown va) > len then len else pgSize - (va - pgRoundDown va)
  have chosen : k.toNat = min (4096 - va.toNat % 4096) len.toNat := by
    by_cases long : pgSize - (va - pgRoundDown va) > len
    · have less := long
      rw [gt_iff_lt,UInt32.lt_iff_toNat_lt,left] at less
      rw [show k = len from if_pos long]
      omega
    · have less := long
      rw [gt_iff_lt,UInt32.lt_iff_toNat_lt,left] at less
      rw [show k = pgSize - (va - pgRoundDown va) from if_neg long,left]
      omega
  have rest : (len - k).toNat = len.toNat - k.toNat := by
    rw [UInt32.toNat_sub]
    omega
  refine ⟨k,chosen,rest,?_⟩
  rw [copyoutLoop,if_pos more,bind_ok translated]
  cases pa with
  | none => rfl
  | some pa =>
    have stored : store pa (va - pgRoundDown va).toNat k.toNat buf s =
        .ok ((),⟨update s.mem pa ((s.mem pa).patch (va.toNat % 4096) k.toNat buf),s.free⟩) := by
      rw [offset]
      rfl
    exact bind_ok stored _

theorem copyoutLoop_page {t : UInt32} (null : Option UInt32) (fuel : Nat) (buf : Nat → UInt8) (len : UInt32) (more : len > 0)
    (same : ∀ g, InTables m d g → s.mem g = m g) (there : tableAt m d (va.toNat / 4096 / 1024) = some t) :
    ∃ k : UInt32, 0 < k.toNat ∧ va.toNat % 4096 + k.toNat ≤ 4096 ∧ k.toNat + (len - k).toNat = len.toNat ∧
      (∀ j < (len - k).toNat, address va (k.toNat + j) = address (pgRoundDown va + pgSize) j) ∧
      copyoutLoop null d (fuel + 1) va buf len s =
        if Reach m d (va.toNat / 4096) then
          copyoutLoop null d fuel (pgRoundDown va + pgSize) (fun i => buf (k.toNat + i)) (len - k) (wrote m s d va k.toNat buf)
        else .ok (-1,s) := by
  have positive : 0 < len.toNat := by
    rw [gt_iff_lt,UInt32.lt_iff_toNat_lt] at more
    exact more
  have down : (pgRoundDown va).toNat = 4096 * (va.toNat / 4096) := by
    rw [toNat_pgRoundDown]
    omega
  obtain ⟨k,chosen,rest,ran⟩ := copyoutLoop_round null fuel buf len more (uva2ka_table null same down there)
  refine ⟨k,by omega,by omega,by omega,?_,?_⟩
  · intro j low
    have full : k.toNat = 4096 - va.toNat % 4096 := by omega
    rw [full]
    exact address_next va j
  · rw [ran]
    by_cases reach : Reach m d (va.toNat / 4096)
    · rw [if_pos reach,if_pos reach]
      rfl
    · rw [if_neg reach,if_neg reach]
      rfl

theorem Plain.next {va' : UInt32} {rest whole : Nat} (plain : Plain m d va whole) (length : n + rest = whole)
    (next : ∀ j < rest, address va (n + j) = address va' j) : Plain m d va' rest := by
  intro j low reached
  rw [← next j low] at reached
  have table := plain (n + j) (by omega) reached
  rw [target,next j low] at table
  exact table

theorem copyoutLoop_meets (null : Option UInt32) (fuel : Nat) (buf : Nat → UInt8) (len : UInt32) (enough : len.toNat < fuel)
    (same : ∀ g, InTables m d g → s.mem g = m g) (tabled : Tabled m d va len.toNat) (plain : Plain m d va len.toNat) :
    ∃ r s', copyoutLoop null d fuel va buf len s = .ok (r,s') ∧ Copyout m s s' d va buf len.toNat r := by
  induction fuel generalizing s va buf len with
  | zero => omega
  | succ fuel ih =>
    by_cases more : len > 0
    · have positive : 0 < len.toNat := by
        rw [gt_iff_lt,UInt32.lt_iff_toNat_lt] at more
        exact more
      obtain ⟨t,there⟩ := tabled 0 positive fun j none => absurd none (by omega)
      rw [address_zero] at there
      obtain ⟨k,some,inside,whole,next,ran⟩ := copyoutLoop_page null fuel buf len more same there
      rw [ran]
      by_cases reach : Reach m d (va.toNat / 4096)
      · rw [if_pos reach]
        have tabled' : Tabled m d (pgRoundDown va + pgSize) (len - k).toNat := by
          intro j low before
          rw [← next j low]
          refine tabled (k.toNat + j) (by omega) ?_
          intro i below
          by_cases small : i < k.toNat
          · have page : (va.toNat + i) / 4096 = va.toNat / 4096 := by omega
            rw [address_first (by omega),page]
            exact reach
          · have earlier := before (i - k.toNat) (by omega)
            have index : k.toNat + (i - k.toNat) = i := by omega
            rw [← next (i - k.toNat) (by omega),index] at earlier
            exact earlier
        obtain ⟨r,s',ran',after⟩ := ih (fun i => buf (k.toNat + i)) (len - k) (by omega)
          (wrote_tables plain positive reach same) tabled' (plain.next whole next)
        refine ⟨r,s',ran',?_⟩
        rw [← whole]
        exact .page reach inside some next after
      · rw [if_neg reach]
        exact ⟨-1,s,rfl,.refused positive (by rw [address_zero]; exact reach)⟩
    · have none : len = 0 := by
        rw [gt_iff_lt,UInt32.lt_iff_toNat_lt] at more
        exact UInt32.toNat_inj.mp (Nat.le_zero.mp (not_lt.mp more))
      refine ⟨0,s,?_,?_⟩
      · rw [copyoutLoop,if_neg more]
        rfl
      · rw [none]
        exact .done m s d va buf

theorem copyoutLoop_null (fuel : Nat) (buf : Nat → UInt8) (len : UInt32) (enough : len.toNat < fuel)
    (same : ∀ g, InTables m d g → s.mem g = m g) (plain : Plain m d va len.toNat) (inside : i < len.toNat)
    (before : ∀ j < i, Reach m d (address va j / 4096)) (missing : tableAt m d (address va i / 4096 / 1024) = none) :
    copyoutLoop none d fuel va buf len s = .error .dangling := by
  induction fuel generalizing s va buf len i with
  | zero => omega
  | succ fuel ih =>
    have more : len > 0 := by
      rw [gt_iff_lt,UInt32.lt_iff_toNat_lt]
      have zero : (0 : UInt32).toNat = 0 := rfl
      omega
    have down : (pgRoundDown va).toNat = 4096 * (va.toNat / 4096) := by
      rw [toNat_pgRoundDown]
      omega
    cases there : tableAt m d (va.toNat / 4096 / 1024) with
    | none =>
      rw [copyoutLoop,if_pos more]
      exact bind_error (uva2ka_missing same down there) _
    | some t =>
      have later : ¬va.toNat % 4096 + i < 4096 := by
        intro first
        have page : (va.toNat + i) / 4096 = va.toNat / 4096 := by omega
        rw [address_first first,page,there] at missing
        cases missing
      have reach : Reach m d (va.toNat / 4096) := by
        have first := before 0 (by omega)
        rw [address_zero] at first
        exact first
      obtain ⟨k,some,within,whole,next,ran⟩ := copyoutLoop_page none fuel buf len more same there
      have index : k.toNat + (i - k.toNat) = i := by omega
      rw [ran,if_pos reach]
      refine ih (i := i - k.toNat) (fun i => buf (k.toNat + i)) (len - k) (by omega) (wrote_tables plain (by omega) reach same)
        (plain.next whole next) (by omega) ?_ ?_
      · intro j below
        rw [← next j (by omega)]
        exact before (k.toNat + j) (by omega)
      · rw [← next _ (by omega),index]
        exact missing

/-- `copyout` does what it should for any contents of address 0 exactly when it consults no missing table. -/
theorem copyout_safe_iff (s : Machine) (d va : UInt32) (p : Nat → UInt8) (len : UInt32) (plain : Plain s.mem d va len.toNat) :
    (∀ null, ∃ r s', copyout null d va p len s = .ok (r,s') ∧ Copyout s.mem s s' d va p len.toNat r) ↔
      Tabled s.mem d va len.toNat := by
  constructor
  · intro safe i inside before
    cases there : tableAt s.mem d (address va i / 4096 / 1024) with
    | some t => exact ⟨t,rfl⟩
    | none =>
      obtain ⟨r,s',ran,_⟩ := safe none
      rw [copyout,copyoutLoop_null _ p len (by omega) (fun _ _ => rfl) plain inside before there] at ran
      cases ran
  · intro tabled null
    exact copyoutLoop_meets null _ p len (by omega) (fun _ _ => rfl) tabled plain

/-- A byte is copied to the only page of a process. -/
theorem copyout_safe_first_page : ∃ s : Machine, Plain s.mem 0x1000000 0 1 ∧ Tabled s.mem 0x1000000 0 1 ∧
    ∀ null p, ∃ r s', copyout null 0x1000000 0 p 1 s = .ok (r,s') ∧ Copyout s.mem s s' 0x1000000 0 p 1 r := by
  obtain ⟨s,sep,pages,_⟩ := blankMachine_grows
  have first : address 0 0 / 4096 = 0 := by decide
  have present : Present (pte s.mem 0x1000000 0) := (pages 0 (by omega)).mpr (by decide)
  have plain : Plain s.mem 0x1000000 0 1 := by
    intro i low _
    obtain rfl : i = 0 := by omega
    rw [target,first]
    exact sep.user_apart (n := 0) ⟨by omega,present,rfl⟩
  have tabled : Tabled s.mem 0x1000000 0 1 := by
    intro i low _
    obtain rfl : i = 0 := by omega
    rw [first]
    exact present_table present
  exact ⟨s,plain,tabled,fun null p => (copyout_safe_iff s 0x1000000 0 p 1 plain).mpr tabled null⟩

/-- In an empty directory `copyout` reads through the null pointer: it traps, or it writes to the page that the word at
address 0 names. -/
theorem copyout_reads_null : copyout none 0x1000000 0 (fun _ => 65) 1 blankMachine = .error .dangling ∧
    ∃ s', copyout (some 0x1003007) 0x1000000 0 (fun _ => 65) 1 blankMachine = .ok (0,s') ∧
      (s'.mem 0x1003000).byte 0 ≠ (blankMachine.mem 0x1003000).byte 0 := by
  refine ⟨stopped_eq_some (by decide +kernel),?_⟩
  have seen : probe (copyout (some 0x1003007) 0x1000000 0 (fun _ => 65) 1) blankMachine
      (fun r s' => if r = 0 ∧ (s'.mem 0x1003000).byte 0 ≠ (blankMachine.mem 0x1003000).byte 0 then some () else none) = some () := by
    decide +kernel
  obtain ⟨r,s',ran,both⟩ := probe_eq_some seen
  obtain ⟨zero,changed⟩ : r = 0 ∧ (s'.mem 0x1003000).byte 0 ≠ (blankMachine.mem 0x1003000).byte 0 := by
    by_contra neither
    rw [if_neg neither] at both
    cases both
  exact ⟨s',zero ▸ ran,changed⟩

end Xv6Ext2.Vm
