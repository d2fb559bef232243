import Mathlib

/-! Tables of slots. A slot holds a key with a value, or nothing; a new key goes into the first slot that holds
nothing, or behind the last one. A table without double keys is a finite map. -/
namespace Xv6Ext2.Lib
open Function

abbrev Table (κ β : Type) := List (Option (κ × β))

namespace Table

variable {κ β : Type}

section Find

variable [DecidableEq κ]

def findFrom (key : κ) : Nat → Table κ β → Option (β × Nat)
  | _, [] => none
  | j, none :: t => findFrom key (j + 1) t
  | j, some a :: t => if a.1 = key then some (a.2,j) else findFrom key (j + 1) t

/-- The value of a key, with the number of its slot. -/
def find (t : Table κ β) (key : κ) : Option (β × Nat) := findFrom key 0 t

/-- The finite map of a table. -/
def entries (t : Table κ β) (key : κ) : Option β := (t.find key).map Prod.fst

end Find

/-- The first slot that holds nothing, or the one behind the last. -/
def hole : Table κ β → Nat
  | [] => 0
  | none :: _ => 0
  | some _ :: t => hole t + 1

def put (t : Table κ β) (key : κ) (b : β) : Table κ β := t.take t.hole ++ some (key,b) :: t.drop (t.hole + 1)

def clear (t : Table κ β) (j : Nat) : Table κ β := t.set j none

/-- No two slots hold the same key. -/
def Unique (t : Table κ β) : Prop :=
  ∀ (i j : Nat) (a b : κ × β), t[i]? = some (some a) → t[j]? = some (some b) → a.1 = b.1 → i = j

theorem hole_le (t : Table κ β) : t.hole ≤ t.length := by
  induction t with
  | nil => exact Nat.le_refl 0
  | cons a t ih =>
    cases a with
    | none => exact Nat.zero_le _
    | some a => exact Nat.succ_le_succ ih

theorem getElem?_hole (t : Table κ β) (a : κ × β) : t[t.hole]? ≠ some (some a) := by
  induction t with
  | nil => simp
  | cons b t ih =>
    cases b with
    | none => simp [hole]
    | some b => simpa [hole] using ih

theorem getElem?_put (t : Table κ β) (key : κ) (b : β) (j : Nat) :
    (t.put key b)[j]? = if j = t.hole then some (some (key,b)) else t[j]? := by
  have short : (t.take t.hole).length = t.hole := List.length_take_of_le t.hole_le
  rcases Nat.lt_trichotomy j t.hole with before | rfl | after
  · rw [put,List.getElem?_append_left (by omega),List.getElem?_take_of_lt before,if_neg (by omega)]
  · rw [put,List.getElem?_append_right (by omega),short,Nat.sub_self,if_pos rfl]
    rfl
  · obtain ⟨d,rfl⟩ : ∃ d, j = t.hole + 1 + d := ⟨j - t.hole - 1,by omega⟩
    rw [put,List.getElem?_append_right (by omega),short,if_neg (by omega),
      show t.hole + 1 + d - t.hole = d + 1 by omega,List.getElem?_cons_succ,List.getElem?_drop]

theorem getElem?_clear (t : Table κ β) (i j : Nat) (inside : i < t.length) :
    (t.clear i)[j]? = if j = i then some none else t[j]? := by
  rw [clear,List.getElem?_set]
  by_cases same : i = j
  · rw [if_pos same,if_pos (same ▸ inside),if_pos same.symm]
  · rw [if_neg same,if_neg (Ne.symm same)]

theorem Unique.clear {t : Table κ β} {i : Nat} (unique : t.Unique) (inside : i < t.length) : (t.clear i).Unique := by
  intro x y a c first second same
  rw [getElem?_clear _ _ _ inside] at first second
  split_ifs at first second
  · cases first
  · cases first
  · cases second
  · exact unique x y a c first second same

section Find

variable [DecidableEq κ] {t : Table κ β} {key : κ} {b : β} {i j : Nat}

private theorem findFrom_some (found : findFrom key i t = some (b,j)) : ∃ d, j = i + d ∧ t[d]? = some (some (key,b)) := by
  induction t generalizing i with
  | nil => cases found
  | cons a t ih =>
    cases a with
    | none =>
      obtain ⟨d,rfl,here⟩ := ih found
      exact ⟨d + 1,by omega,by rwa [List.getElem?_cons_succ]⟩
    | some a =>
      rw [findFrom] at found
      split_ifs at found with same
      · obtain ⟨rfl,rfl⟩ := Prod.mk.inj (Option.some.inj found)
        exact ⟨0,rfl,by rw [List.getElem?_cons_zero,← same]⟩
      · obtain ⟨d,rfl,here⟩ := ih found
        exact ⟨d + 1,by omega,by rwa [List.getElem?_cons_succ]⟩

theorem find_some (found : t.find key = some (b,j)) : t[j]? = some (some (key,b)) := by
  obtain ⟨d,rfl,here⟩ := findFrom_some found
  rwa [Nat.zero_add]

private theorem findFrom_none (absent : findFrom key i t = none) (d : Nat) (b : β) : t[d]? ≠ some (some (key,b)) := by
  induction t generalizing i d with
  | nil => simp
  | cons a t ih =>
    cases a with
    | none =>
      cases d with
      | zero => simp
      | succ d => simpa using ih absent d
    | some a =>
      rw [findFrom] at absent
      split_ifs at absent with same
      cases d with
      | zero =>
        intro here
        rw [List.getElem?_cons_zero] at here
        cases here
        exact same rfl
      | succ d => simpa using ih absent d

theorem find_eq_none_iff : t.find key = none ↔ ∀ (j : Nat) (b : β), t[j]? ≠ some (some (key,b)) := by
  refine ⟨fun absent j b => findFrom_none absent j b,fun none => ?_⟩
  cases found : t.find key with
  | none => rfl
  | some hit => exact absurd (find_some found) (none _ _)

theorem Unique.find_eq_some_iff (unique : t.Unique) : t.find key = some (b,j) ↔ t[j]? = some (some (key,b)) := by
  refine ⟨find_some,fun here => ?_⟩
  cases found : t.find key with
  | none => exact absurd here (find_eq_none_iff.mp found j b)
  | some hit =>
    have there := find_some found
    obtain rfl : hit.2 = j := unique _ _ _ _ there here rfl
    rw [here] at there
    cases there
    rfl

theorem entries_eq_none_iff : t.entries key = none ↔ t.find key = none := Option.map_eq_none_iff

theorem Unique.entries_eq_some_iff (unique : t.Unique) : t.entries key = some b ↔ ∃ j : Nat, t[j]? = some (some (key,b)) := by
  rw [entries,Option.map_eq_some_iff]
  constructor
  · rintro ⟨⟨_,j⟩,found,rfl⟩
    exact ⟨j,find_some found⟩
  · rintro ⟨j,here⟩
    exact ⟨(b,j),unique.find_eq_some_iff.mpr here,rfl⟩

theorem Unique.put (unique : t.Unique) (absent : t.find key = none) (b : β) : (t.put key b).Unique := by
  intro i j a c first second same
  rw [getElem?_put] at first second
  have none := find_eq_none_iff.mp absent
  split_ifs at first second with left right
  · rw [left,right]
  · cases first
    obtain ⟨k,c⟩ := c
    obtain rfl : key = k := same
    exact absurd second (none j c)
  · cases second
    obtain ⟨k,a⟩ := a
    obtain rfl : k = key := same
    exact absurd first (none i a)
  · exact unique i j a c first second same

/-- A new key is added to the map. -/
theorem Unique.entries_put (unique : t.Unique) (absent : t.find key = none) (b : β) :
    (t.put key b).entries = update t.entries key (some b) := by
  have none := find_eq_none_iff.mp absent
  funext other
  refine Option.ext fun c => ?_
  rw [(unique.put absent b).entries_eq_some_iff]
  by_cases same : other = key
  · rw [same,update_self]
    constructor
    · rintro ⟨j,here⟩
      rw [getElem?_put] at here
      split_ifs at here
      · cases here
        rfl
      · exact absurd here (none j c)
    · intro equal
      cases equal
      exact ⟨t.hole,by rw [getElem?_put,if_pos rfl]⟩
  · rw [update_of_ne same,unique.entries_eq_some_iff]
    constructor
    · rintro ⟨j,here⟩
      rw [getElem?_put] at here
      split_ifs at here
      · cases here
        exact absurd rfl same
      · exact ⟨j,here⟩
    · rintro ⟨j,here⟩
      have filled : j ≠ t.hole := fun equal => getElem?_hole t _ (equal ▸ here)
      exact ⟨j,by rw [getElem?_put,if_neg filled]; exact here⟩

/-- The key of the cleared slot is taken from the map. -/
theorem Unique.entries_clear (unique : t.Unique) (here : t[i]? = some (some (key,b))) :
    (t.clear i).entries = update t.entries key none := by
  have inside : i < t.length := (List.getElem?_eq_some_iff.mp here).1
  funext other
  refine Option.ext fun c => ?_
  rw [(unique.clear inside).entries_eq_some_iff]
  by_cases same : other = key
  · rw [same,update_self]
    refine ⟨?_,fun impossible => by cases impossible⟩
    rintro ⟨j,there⟩
    rw [getElem?_clear _ _ _ inside] at there
    split_ifs at there with equal
    · cases there
    · exact absurd (unique j i _ _ there here rfl) equal
  · rw [update_of_ne same,unique.entries_eq_some_iff]
    constructor
    · rintro ⟨j,there⟩
      rw [getElem?_clear _ _ _ inside] at there
      split_ifs at there
      · cases there
      · exact ⟨j,there⟩
    · rintro ⟨j,there⟩
      have different : j ≠ i := by
        rintro rfl
        rw [here] at there
        cases there
        exact same rfl
      exact ⟨j,by rw [getElem?_clear _ _ _ inside,if_neg different]; exact there⟩

end Find

end Table

end Xv6Ext2.Lib
