import Mathlib

/-! Nodes that follow each other by a `next` field. `Follows next z l` says that the nodes of `l` do, and that `z` comes behind the
last one; a circle is a list with its own head behind it. -/
namespace Xv6Ext2.Lib

variable {α : Type} {next next' : α → α} {z a b : α} {l l' : List α}

def Follows (next : α → α) (z : α) : List α → Prop
  | [] => True
  | a :: l => next a = l.headD z ∧ Follows next z l

theorem headD_append (l l' : List α) (z : α) : (l ++ l').headD z = l.headD (l'.headD z) := by
  cases l with
  | nil => rfl
  | cons a l => rfl

theorem getLastD_append (l l' : List α) (z : α) : (l ++ a :: l').getLastD z = l'.getLastD a := by
  induction l generalizing z with
  | nil => rw [List.nil_append,List.getLastD_cons]
  | cons b l ih => rw [List.cons_append,List.getLastD_cons,ih]

theorem follows_append : Follows next z (l ++ l') ↔ Follows next (l'.headD z) l ∧ Follows next z l' := by
  induction l with
  | nil => exact ⟨fun rest => ⟨True.intro,rest⟩,And.right⟩
  | cons a l ih => rw [List.cons_append,Follows,Follows,ih,headD_append,and_assoc]

theorem Follows.congr (follows : Follows next z l) (same : ∀ a ∈ l, next' a = next a) : Follows next' z l := by
  induction l with
  | nil => exact True.intro
  | cons a l ih =>
    refine ⟨(same a List.mem_cons_self).trans follows.1,ih follows.2 ?_⟩
    intro b member
    exact same b (List.mem_cons_of_mem _ member)

theorem Follows.next_eq (follows : Follows next z (l ++ a :: l')) : next a = l'.headD z := (follows_append.mp follows).2.1

/-- The node behind `a` is taken out. -/
theorem Follows.remove (follows : Follows next z (l ++ a :: b :: l')) (new : next' a = next b) (same : ∀ c ∈ l ++ l', next' c = next c) :
    Follows next' z (l ++ a :: l') := by
  obtain ⟨before,_,there,after⟩ := follows_append.mp follows
  refine follows_append.mpr ⟨before.congr fun c member => same c (List.mem_append_left _ member),?_,?_⟩
  · rw [new,there]
  · exact after.congr fun c member => same c (List.mem_append_right _ member)

/-- A circle may be cut anywhere. -/
theorem Follows.rotate (follows : Follows next (l.headD b) (l ++ b :: l')) : Follows next b (b :: l' ++ l) := by
  obtain ⟨before,after⟩ := follows_append.mp follows
  exact follows_append.mpr ⟨after,before⟩

end Xv6Ext2.Lib
