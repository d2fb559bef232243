import Xv6Ext2.Vfs.Model
import Xv6Ext2.Lib.Stored

/-! `skipelem` as it runs along the bytes of a path, and the components that its rounds give. -/
namespace Xv6Ext2.Vfs
open Lib Function

theorem skipelem_shorter {path rest : List UInt8} {name name' : Memory} {dev : Device}
    (some : skipelem path name dev = some (rest,name')) : rest.length < path.length := by
  rw [skipelem] at some
  have first := (List.dropWhile_suffix (fun c => decide (c = slash)) (l := path)).length_le
  have start := List.head?_dropWhile_not (fun c => decide (c = slash)) path
  generalize path.dropWhile (fun c => decide (c = slash)) = body at *
  cases body with
  | nil => simp at some
  | cons c body =>
    have letter : c ≠ slash := by simpa using start
    have short := (List.dropWhile_suffix (fun c => decide (c ≠ slash)) (l := body)).length_le
    have shorter := (List.dropWhile_suffix (fun c => decide (c = slash)) (l := body.dropWhile fun c => decide (c ≠ slash))).length_le
    have result : rest = (body.dropWhile fun c => decide (c ≠ slash)).dropWhile fun c => decide (c = slash) := by
      simp only [List.dropWhile_cons,letter,reduceCtorEq,if_false,ne_eq,not_false_eq_true,decide_true,if_true] at some
      split_ifs at some
      · exact (congrArg Prod.fst (Option.some.inj some)).symm
      · exact (congrArg Prod.fst (Option.some.inj some)).symm
    rw [result]
    simp only [List.length_cons] at first
    omega

/-- `skipelem(path, name, dev)` with `path` an address of `mem`: the pointer that is returned and `name`, if every loop ends
within `fuel` rounds. -/
def skipelemAt (mem : Memory) (fuel path : Nat) (name : Memory) (dev : Device) : Option (Option Nat × Memory) := do
  let path ← advance (· = slash) mem fuel path
  if mem path = 0 then return (none,name)
  else
    let s := path
    let path ← advance (fun c => c ≠ slash ∧ c ≠ 0) mem fuel path
    let len := path - s
    let name :=
      if len ≥ dirlength dev then poke name 0 (dirlength dev) (fun i => mem (s + i))
      else update (poke name 0 len (fun i => mem (s + i))) len 0
    let path ← advance (· = slash) mem fuel path
    return (some path,name)

/-- `while((path = skipelem(path, name, dev)) != 0)`, with `devs i` the device of the directory that round `i` starts from: `name`
and the pointer after each round. -/
def elements (mem : Memory) (limit : Nat) : (Nat → Device) → Nat → Nat → Memory → Option (List (Memory × Nat))
  | _, 0, _, _ => none
  | devs, fuel + 1, path, name => do
    match ← skipelemAt mem limit path name (devs 0) with
    | (none,_) => return []
    | (some path,name) => return (name,path) :: (← elements mem limit (fun i => devs (i + 1)) fuel path name)

def components (path : List UInt8) : List (List UInt8) := (path.splitOn slash).filter (· ≠ [])

structure Extracts (dev : Device) (c : List UInt8) (name name' : Memory) : Prop where
  copied : ∀ i < min c.length (dirlength dev), name' i = cstring c i
  ended : c.length < dirlength dev → name' c.length = 0
  kept : ∀ i, dirlength dev ≤ i → name' i = name i

/-- The rounds give these components; the path that is left starts with no slash, and is empty after the last one. -/
inductive Enumerates (mem : Memory) : (Nat → Device) → List (List UInt8) → Memory → List (Memory × Nat) → Prop
  | done (devs : Nat → Device) (name : Memory) : Enumerates mem devs [] name []
  | round {devs : Nat → Device} {c : List UInt8} {cs : List (List UInt8)} {name name' : Memory} {rest : Nat}
      {rounds : List (Memory × Nat)} (extracts : Extracts (devs 0) c name name') (start : mem rest ≠ slash)
      (last : mem rest = 0 ↔ cs = []) (more : Enumerates mem (fun i => devs (i + 1)) cs name' rounds) :
      Enumerates mem devs (c :: cs) name ((name',rest) :: rounds)

theorem components_slash (s : List UInt8) : components (slash :: s) = components s := by
  simp [components,List.splitOn,List.splitOnP_cons_eq_if_modifyHead]

theorem components_dropWhile (s : List UInt8) : components (s.dropWhile (· = slash)) = components s := by
  induction s with
  | nil => rfl
  | cons c s ih =>
    by_cases slashed : c = slash
    · rw [slashed,List.dropWhile_cons_of_pos (by simp),components_slash,ih]
    · rw [List.dropWhile_cons_of_neg (by simpa using slashed)]

theorem components_append {w t : List UInt8} (word : w ≠ []) (inside : slash ∉ w) (ends : t.head? = none ∨ t.head? = some slash) :
    components (w ++ t) = w :: components t := by
  have free : ∀ c ∈ w, (c == slash) = false := by
    intro c member
    rw [beq_eq_false_iff_ne]
    rintro rfl
    exact inside member
  cases t with
  | nil => simp [components,List.splitOn,List.splitOnP_eq_singleton free,word]
  | cons c t =>
    obtain rfl : c = slash := by simpa using ends
    rw [components_slash,components,List.splitOn,List.splitOnP_append_cons_of_forall_mem free _ (by simp)]
    simp [components,List.splitOn,word]

def stored (dev : Device) (w : List UInt8) (name : Memory) : Memory :=
  if w.length ≥ dirlength dev then poke name 0 (dirlength dev) (cstring w) else poke name 0 (w.length + 1) (cstring w)

theorem stored_extracts (dev : Device) (w : List UInt8) (name : Memory) : Extracts dev w name (stored dev w name) := by
  rw [stored]
  split_ifs with long
  · constructor
    · intro i inside
      simpa using poke_inside name 0 (dirlength dev) (cstring w) (lt_of_lt_of_le inside (Nat.min_le_right _ _))
    · intro short
      exact absurd long (Nat.not_le.mpr short)
    · intro i outside
      exact poke_outside _ _ _ _ (.inr (by omega))
  · constructor
    · intro i inside
      simpa using poke_inside name 0 (w.length + 1) (cstring w) (i := i) (by omega)
    · intro _
      have zero := poke_inside name 0 (w.length + 1) (cstring w) (i := w.length) (by omega)
      rwa [Nat.zero_add,cstring_end w (Nat.le_refl _)] at zero
    · intro i outside
      exact poke_outside _ _ _ _ (.inr (by omega))

theorem head_dropWhile {go : UInt8 → Bool} {s : List UInt8} {c : UInt8} (first : (s.dropWhile go).head? = some c) : go c = false := by
  have stopped := List.head?_dropWhile_not go s
  rwa [first] at stopped

theorem skipelem_cases (s : List UInt8) (name : Memory) (dev : Device) :
    (s.dropWhile (· = slash) = [] ∧ skipelem s name dev = none) ∨
    ∃ w t, s.dropWhile (· = slash) = w ++ t ∧ w ≠ [] ∧ slash ∉ w ∧ (t.head? = none ∨ t.head? = some slash) ∧
      skipelem s name dev = some (t.dropWhile (· = slash),stored dev w name) := by
  have first : ∀ c, (s.dropWhile (· = slash)).head? = some c → decide (c = slash) = false := fun c => head_dropWhile
  rw [skipelem]
  generalize s.dropWhile (· = slash) = body at *
  cases body with
  | nil => exact .inl ⟨rfl,rfl⟩
  | cons c body =>
    have letter : c ≠ slash := by simpa using first c rfl
    refine .inr ⟨(c :: body).takeWhile (· ≠ slash),(c :: body).dropWhile (· ≠ slash),(List.takeWhile_append_dropWhile).symm,?_,?_,?_,?_⟩
    · simp [letter]
    · intro member
      simpa using List.mem_takeWhile_imp member
    · cases head : ((c :: body).dropWhile (· ≠ slash)).head? with
      | none => exact .inl rfl
      | some d =>
        have stopped := head_dropWhile head
        exact .inr (by simpa using stopped)
    · rw [if_neg (List.cons_ne_nil c body)]
      dsimp only
      rw [stored]
      split_ifs <;> rfl

theorem components_skipelem {s w t : List UInt8} (body : s.dropWhile (· = slash) = w ++ t) (word : w ≠ []) (inside : slash ∉ w)
    (ends : t.head? = none ∨ t.head? = some slash) : components s = w :: components (t.dropWhile (· = slash)) := by
  rw [← components_dropWhile s,body,components_append word inside ends,components_dropWhile]

theorem components_eq_nil {s : List UInt8} (start : s.head? ≠ some slash) : components s = [] ↔ s = [] := by
  constructor
  · intro none
    cases s with
    | nil => rfl
    | cons c s =>
      obtain ⟨empty,-⟩ | ⟨w,t,body,word,inside,ends,-⟩ := skipelem_cases (c :: s) (fun _ => 0) .rootdev
      · rw [List.dropWhile_cons_of_neg (by simpa using start)] at empty
        exact empty
      · rw [components_skipelem body word inside ends] at none
        contradiction
  · rintro rfl
    rfl

theorem takeWhile_word {w t : List UInt8} (plain : 0 ∉ w ++ t) (inside : slash ∉ w) (ends : t.head? = none ∨ t.head? = some slash) :
    (w ++ t).takeWhile (fun c => c ≠ slash ∧ c ≠ 0) = w := by
  have letters : ∀ c ∈ w, decide (c ≠ slash ∧ c ≠ 0) = true := by
    intro c member
    rw [decide_eq_true_eq]
    constructor
    · rintro rfl
      exact inside member
    · rintro rfl
      exact plain (List.mem_append_left t member)
  rw [List.takeWhile_append_of_pos letters]
  cases t with
  | nil => simp
  | cons c t =>
    obtain rfl : c = slash := by simpa using ends
    simp

theorem copied_eq {mem : Memory} {q : Nat} {w t : List UInt8} (body : Stored mem q (w ++ t)) (name : Memory) (dev : Device) :
    (if w.length ≥ dirlength dev then poke name 0 (dirlength dev) (fun i => mem (q + i))
      else update (poke name 0 w.length (fun i => mem (q + i))) w.length 0) = stored dev w name := by
  have bytes : ∀ i < w.length, mem (q + i) = cstring w i := by
    intro i inside
    rw [body.bytes i (by rw [List.length_append]; omega),cstring_append_left w t inside]
  rw [stored]
  split_ifs with long
  · funext i
    simp only [poke]
    split_ifs with inside
    · exact bytes _ (by omega)
    · rfl
  · funext i
    by_cases last : i = w.length
    · subst last
      rw [update_self,poke,if_pos (by omega),cstring_end w (by omega)]
    · rw [update_of_ne last,poke,poke]
      by_cases inside : i < w.length
      · rw [if_pos (by omega),if_pos (by omega),bytes _ (by omega)]
      · rw [if_neg (by omega),if_neg (by omega)]

theorem skipelemAt_eq {mem : Memory} {p : Nat} {s : List UInt8} (path : Stored mem p s) {fuel : Nat} (enough : s.length < fuel)
    (name : Memory) (dev : Device) :
    (skipelem s name dev = none ∧ skipelemAt mem fuel p name dev = some (none,name)) ∨
    ∃ rest name' q, skipelem s name dev = some (rest,name') ∧ skipelemAt mem fuel p name dev = some (some q,name') ∧
      Stored mem q rest := by
  have body := path.advanced (· = slash)
  have shorter := (List.dropWhile_suffix (fun c => decide (c = slash)) (l := s)).length_le
  rw [skipelemAt,advance_eq (by decide) path enough,Option.bind_eq_bind,Option.bind_some]
  obtain ⟨empty,none⟩ | ⟨w,t,split,word,inside,ends,some⟩ := skipelem_cases s name dev
  · rw [empty] at body
    rw [if_pos body.at_end]
    exact .inl ⟨none,rfl⟩
  · rw [split] at body shorter
    rw [List.length_append] at shorter
    generalize p + (s.takeWhile (· = slash)).length = q at *
    have letter : mem q ≠ 0 := by
      obtain ⟨c,w,rfl⟩ := List.exists_cons_of_ne_nil word
      rw [body.head]
      exact body.head_ne_zero
    have behind : Stored mem (q + w.length) t := body.rest
    rw [if_neg letter,advance_eq (by decide) body (by rw [List.length_append]; omega),takeWhile_word body.plain inside ends,
      Option.bind_some,advance_eq (by decide) behind (by omega),Option.bind_some,Nat.add_sub_cancel_left,copied_eq body]
    exact .inr ⟨_,_,_,some,rfl,behind.advanced _⟩

theorem skipelem_none {s : List UInt8} {name : Memory} {dev : Device} (none : skipelem s name dev = none) : components s = [] := by
  obtain ⟨empty,-⟩ | ⟨w,t,-,-,-,-,some⟩ := skipelem_cases s name dev
  · rw [← components_dropWhile s,empty]
    rfl
  · rw [none] at some
    contradiction

theorem skipelem_some {s rest : List UInt8} {name name' : Memory} {dev : Device} (found : skipelem s name dev = some (rest,name')) :
    ∃ c, components s = c :: components rest ∧ Extracts dev c name name' ∧ rest.head? ≠ some slash := by
  obtain ⟨-,none⟩ | ⟨w,t,split,word,inside,ends,result⟩ := skipelem_cases s name dev
  · rw [none] at found
    contradiction
  · rw [result] at found
    obtain ⟨rfl,rfl⟩ := Prod.mk.inj (Option.some.inj found)
    refine ⟨w,components_skipelem split word inside ends,stored_extracts dev w name,?_⟩
    intro first
    simpa using head_dropWhile first

theorem elements_enumerate {mem : Memory} {p : Nat} {s : List UInt8} (path : Stored mem p s) {limit : Nat} (far : s.length < limit)
    {fuel : Nat} (enough : s.length < fuel) (devs : Nat → Device) (name : Memory) :
    ∃ rounds, elements mem limit devs fuel p name = some rounds ∧ Enumerates mem devs (components s) name rounds := by
  induction fuel generalizing p s devs name with
  | zero => exact absurd enough (Nat.not_lt_zero _)
  | succ fuel ih =>
    rw [elements]
    obtain ⟨none,ran⟩ | ⟨rest,name',q,some,ran,behind⟩ := skipelemAt_eq path far name (devs 0)
    · rw [ran,skipelem_none none]
      exact ⟨[],rfl,.done devs name⟩
    · have shorter := skipelem_shorter some
      obtain ⟨c,split,extracts,start⟩ := skipelem_some some
      obtain ⟨rounds,more,enumerates⟩ := ih behind (by omega) (by omega) (fun i => devs (i + 1)) name'
      rw [ran,Option.bind_eq_bind,Option.bind_some,split]
      dsimp only
      rw [more]
      refine ⟨(name',q) :: rounds,rfl,.round extracts ?_ ?_ enumerates⟩
      · intro slashed
        cases rest with
        | nil =>
          rw [behind.at_end] at slashed
          exact absurd slashed (by decide)
        | cons d rest =>
          rw [behind.head] at slashed
          exact start (by rw [slashed]; rfl)
      · rw [components_eq_nil start]
        constructor
        · intro zero
          cases rest with
          | nil => rfl
          | cons d rest =>
            rw [behind.head] at zero
            exact absurd zero behind.head_ne_zero
        · rintro rfl
          exact behind.at_end

theorem elements_enumerate_two : ∃ rounds, elements (cstring [47,47,97,47,98,99,47]) 8 (fun _ => .rootdev) 8 0 (fun _ => 0) = some rounds ∧
    Enumerates (cstring [47,47,97,47,98,99,47]) (fun _ => .rootdev) [[97],[98,99]] (fun _ => 0) rounds := by
  have path : Stored (cstring [47,47,97,47,98,99,47]) 0 [47,47,97,47,98,99,47] := ⟨by decide,fun i _ => by rw [Nat.zero_add]⟩
  exact elements_enumerate path (by decide) (by decide) (fun _ => .rootdev) (fun _ => 0)

end Xv6Ext2.Vfs
