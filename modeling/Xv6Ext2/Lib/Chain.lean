import Mathlib

/-! Elements of varying size laid out one behind the other. -/
namespace Xv6Ext2.Lib

section

variable {α : Type} (size : α → Nat)

def span (items : List α) : Nat := (items.map size).sum

/-- Each element satisfies `P` at the offset where it begins. -/
def Along (P : Nat → α → Prop) : Nat → List α → Prop
  | _, [] => True
  | off, a :: items => P off a ∧ Along P (off + size a) items

instance decidableAlong (P : Nat → α → Prop) [∀ off a, Decidable (P off a)] :
    (off : Nat) → (items : List α) → Decidable (Along size P off items)
  | _, [] => isTrue trivial
  | off, a :: items =>
    have := decidableAlong P (off + size a) items
    inferInstanceAs (Decidable (P off a ∧ Along size P (off + size a) items))

/-- The first element that `p` accepts, with its offset. -/
def locate (p : α → Bool) : Nat → List α → Option (α × Nat)
  | _, [] => none
  | off, a :: items => if p a then some (a,off) else locate p (off + size a) items

@[simp] theorem span_nil : span size [] = 0 := rfl

@[simp] theorem span_cons (a : α) (items : List α) : span size (a :: items) = size a + span size items := by
  simp [span]

@[simp] theorem span_append (front back : List α) :
    span size (front ++ back) = span size front + span size back := by
  simp [span]

variable {size} {P Q : Nat → α → Prop} {p : α → Bool}

theorem along_append {off : Nat} {front back : List α} :
    Along size P off (front ++ back) ↔ Along size P off front ∧ Along size P (off + span size front) back := by
  induction front generalizing off with
  | nil => simp [Along]
  | cons a front ih => simp only [List.cons_append,Along,ih,span_cons,and_assoc,Nat.add_assoc]

theorem along_concat {off : Nat} {front : List α} {a : α} :
    Along size P off (front ++ [a]) ↔ Along size P off front ∧ P (off + span size front) a := by
  rw [along_append]
  simp [Along]

/-- It is enough to look at elements within the span. -/
theorem Along.mono {off : Nat} {items : List α} (along : Along size P off items)
    (step : ∀ pos a, off ≤ pos → pos + size a ≤ off + span size items → P pos a → Q pos a) :
    Along size Q off items := by
  induction items generalizing off with
  | nil => trivial
  | cons a items ih =>
    rw [span_cons] at step
    refine ⟨step off a (Nat.le_refl _) (by omega) along.1,ih along.2 ?_⟩
    intro pos b lower upper
    exact step pos b (by omega) (by omega)

theorem Along.and {off : Nat} {items : List α} (first : Along size P off items) (second : Along size Q off items) :
    Along size (fun pos a => P pos a ∧ Q pos a) off items := by
  induction items generalizing off with
  | nil => trivial
  | cons a items ih => exact ⟨⟨first.1,second.1⟩,ih first.2 second.2⟩

theorem Along.length_le {off : Nat} {items : List α} (along : Along size P off items)
    (positive : ∀ pos a, P pos a → 0 < size a) : items.length ≤ span size items := by
  induction items generalizing off with
  | nil => exact Nat.le_refl 0
  | cons a items ih =>
    have here := positive off a along.1
    have rest := ih along.2
    rw [List.length_cons,span_cons]
    omega

theorem locate_eq_some {off pos : Nat} {items : List α} {a : α} (found : locate size p off items = some (a,pos)) :
    ∃ front back, items = front ++ a :: back ∧ pos = off + span size front ∧ p a = true := by
  induction items generalizing off with
  | nil => cases found
  | cons b items ih =>
    rw [locate] at found
    split_ifs at found with hit
    · obtain ⟨rfl,rfl⟩ := Prod.mk.inj (Option.some.inj found)
      exact ⟨[],items,rfl,by simp,hit⟩
    · obtain ⟨front,back,rfl,place,accepted⟩ := ih found
      exact ⟨b :: front,back,rfl,by rw [place,span_cons,Nat.add_assoc],accepted⟩

theorem locate_fst (off : Nat) (items : List α) : (locate size p off items).map Prod.fst = items.find? p := by
  induction items generalizing off with
  | nil => rfl
  | cons a items ih =>
    rw [locate,List.find?_cons]
    cases accepted : p a <;> simp [ih]

theorem Along.mem {off : Nat} {items : List α} (along : Along size P off items) {a : α} (member : a ∈ items) :
    ∃ pos, P pos a := by
  induction items generalizing off with
  | nil => cases member
  | cons b items ih =>
    rcases List.mem_cons.mp member with rfl | later
    · exact ⟨off,along.1⟩
    · exact ih along.2 later

theorem along_iff_forall {Q : α → Prop} {off : Nat} {items : List α} : Along size (fun _ a => Q a) off items ↔ ∀ a ∈ items, Q a := by
  induction items generalizing off with
  | nil => simp [Along]
  | cons a items ih => rw [Along,ih,List.forall_mem_cons]

/-- Two chains that are determined by what is stored, and that end at the first offset at which none may begin. -/
theorem along_unique {B : Nat → Prop} {off : Nat} {items others : List α} (single : ∀ pos a b, P pos a → P pos b → a = b)
    (stored : Along size P off items) (stored' : Along size P off others) (begins : Along size (fun pos _ => B pos) off items)
    (begins' : Along size (fun pos _ => B pos) off others) (ends : ¬B (off + span size items)) (ends' : ¬B (off + span size others)) :
    items = others := by
  induction items generalizing off others with
  | nil =>
    cases others with
    | nil => rfl
    | cons b others => exact absurd begins'.1 ends
  | cons a items ih =>
    cases others with
    | nil => exact absurd begins.1 ends'
    | cons b others =>
      obtain rfl := single off a b stored.1 stored'.1
      rw [span_cons,← Nat.add_assoc] at ends ends'
      rw [ih stored.2 stored'.2 begins.2 begins'.2 ends ends']

theorem locate_congr {q : α → Bool} {off : Nat} {items : List α} (same : ∀ a ∈ items, p a = q a) :
    locate size p off items = locate size q off items := by
  induction items generalizing off with
  | nil => rfl
  | cons a items ih =>
    rw [locate,locate,same a List.mem_cons_self,ih (fun b member => same b (List.mem_cons_of_mem a member))]

end

end Xv6Ext2.Lib
