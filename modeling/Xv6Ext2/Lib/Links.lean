import Mathlib

/-! Doubly linked lists that run through a head. A pointer is `none` for the head and `some x` for the node `x`;
the links are two stores that every operation changes one pointer at a time. -/
namespace Xv6Ext2.Lib
open Function

structure Links (ι : Type) where
  next : Option ι → Option ι
  prev : Option ι → Option ι

namespace Links

section

variable {ι : Type} [DecidableEq ι]

/-- The head alone. -/
def empty : Links ι := ⟨fun _ => none,fun _ => none⟩

def setNext (r : Links ι) (a b : Option ι) : Links ι := {r with next := update r.next a b}

def setPrev (r : Links ι) (a b : Option ι) : Links ι := {r with prev := update r.prev a b}

/-- Take a node out: its neighbours get each other as neighbours. -/
def unlink (r : Links ι) (x : ι) : Links ι :=
  let r := r.setPrev (r.next (some x)) (r.prev (some x))
  r.setNext (r.prev (some x)) (r.next (some x))

/-- Put a node after the head. -/
def push (r : Links ι) (x : ι) : Links ι :=
  let r := r.setNext (some x) (r.next none)
  let r := r.setPrev (some x) none
  let r := r.setPrev (r.next none) (some x)
  r.setNext none (some x)

/-- The nodes of `l` are linked in this order from the head to the head, in both directions. -/
def Linked (r : Links ι) (l : List ι) : Prop :=
  List.IsChain (fun a b => r.next a = b ∧ r.prev b = a) (none :: (l.map some ++ [none]))

/-- Follow links until a node passes a test or the head is reached; `none` if neither is within `fuel` nodes. -/
def seek (link : Option ι → Option ι) (test : ι → Bool) : Nat → Option ι → Option (Option ι)
  | _, none => some none
  | 0, some _ => none
  | fuel + 1, some x => if test x then some (some x) else seek link test fuel (link (some x))

variable {r r' : Links ι} {l : List ι} {x : ι}

omit [DecidableEq ι]

theorem chain_congr {path : List (Option ι)} (chain : path.IsChain (fun a b => r.next a = b ∧ r.prev b = a))
    (next : ∀ a ∈ path.dropLast, r'.next a = r.next a) (prev : ∀ b ∈ path.tail, r'.prev b = r.prev b) :
    path.IsChain (fun a b => r'.next a = b ∧ r'.prev b = a) := by
  induction path with
  | nil => exact .nil
  | cons a rest ih =>
    cases rest with
    | nil => exact .singleton a
    | cons b rest =>
      obtain ⟨⟨forth,back⟩,chain⟩ := List.isChain_cons_cons.mp chain
      refine List.isChain_cons_cons.mpr ⟨⟨(next a (by simp)).trans forth,(prev b (by simp)).trans back⟩,?_⟩
      exact ih chain (fun c mem => next c (by simp [mem])) (fun c mem => prev c (List.mem_of_mem_tail mem))

theorem linked_empty : Linked (empty : Links ι) [] := by
  simp [Linked,empty]

theorem seek_path (link : Option ι → Option ι) (test : ι → Bool) {fuel : Nat} (enough : l.length ≤ fuel) {a : Option ι}
    (chain : List.IsChain (fun a b => link a = b) (a :: (l.map some ++ [none]))) :
    seek link test fuel (link a) = some (l.find? test) := by
  induction l generalizing fuel a with
  | nil =>
    obtain ⟨last,-⟩ := List.isChain_cons_cons.mp chain
    cases fuel <;> simp [last,seek]
  | cons x l ih =>
    obtain ⟨first,chain⟩ := List.isChain_cons_cons.mp chain
    obtain ⟨fuel,rfl⟩ := Nat.exists_eq_succ_of_ne_zero (n := fuel) (by simp at enough; omega)
    rw [first,seek,List.find?_cons]
    cases test x with
    | true => rfl
    | false => exact ih (by simpa using enough) chain

theorem Linked.reverse (linked : Linked r l) : Linked ⟨r.prev,r.next⟩ l.reverse := by
  have back := List.isChain_reverse.mpr (linked.imp (fun a b both => both.symm))
  simpa [Linked] using back

theorem Linked.seek_next (linked : Linked r l) (test : ι → Bool) {fuel : Nat} (enough : l.length ≤ fuel) :
    seek r.next test fuel (r.next none) = some (l.find? test) :=
  seek_path r.next test enough (linked.imp fun _ _ both => both.1)

theorem Linked.seek_prev (linked : Linked r l) (test : ι → Bool) {fuel : Nat} (enough : l.length ≤ fuel) :
    seek r.prev test fuel (r.prev none) = some (l.reverse.find? test) :=
  seek_path r.prev test (by simpa using enough) (linked.reverse.imp fun _ _ both => both.1)

theorem nodup_path (once : l.Nodup) : (l.map some ++ [none]).Nodup := by
  refine List.nodup_append.mpr ⟨once.map (Option.some_injective ι),List.nodup_singleton none,fun a mem b last => ?_⟩
  obtain ⟨y,-,rfl⟩ := List.mem_map.mp mem
  simp [List.mem_singleton.mp last]

variable [DecidableEq ι]

theorem push_next (a : Option ι) : (r.push x).next a = if a = none then some x else if a = some x then r.next none else r.next a := by
  simp [push,setNext,setPrev,update_apply]

theorem push_prev (a : Option ι) : (r.push x).prev a = if a = r.next none then some x else if a = some x then none else r.prev a := by
  simp [push,setNext,setPrev,update_apply]

theorem Linked.push (linked : Linked r l) (once : l.Nodup) (fresh : x ∉ l) : Linked (r.push x) (x :: l) := by
  obtain ⟨first,rest,path⟩ : ∃ first rest, l.map some ++ [none] = first :: rest :=
    List.exists_cons_of_ne_nil (by simp)
  have nodup := nodup_path once
  have apart : some x ∉ first :: rest := by rw [← path]; simp [fresh]
  unfold Linked at linked ⊢
  rw [path] at linked nodup
  rw [List.map_cons,List.cons_append,path]
  obtain ⟨⟨forth,back⟩,chain⟩ := List.isChain_cons_cons.mp linked
  have head : first ≠ some x := fun equal => apart (by simp [equal])
  refine List.isChain_cons_cons.mpr ⟨⟨by simp [push_next],by simp [push_prev,forth,Ne.symm head]⟩,?_⟩
  refine List.isChain_cons_cons.mpr ⟨⟨by simp [push_next,forth],by simp [push_prev,forth]⟩,?_⟩
  refine chain_congr chain (fun a mem => ?_) (fun b mem => ?_)
  · have inner : a ∈ l.map some := by simpa [← path] using mem
    have other : a ≠ some x := fun equal => apart (equal ▸ List.dropLast_subset _ mem)
    have node : a ≠ none := by rintro rfl; simp at inner
    simp [push_next,node,other]
  · have other : b ≠ some x := fun equal => apart (equal ▸ List.mem_of_mem_tail mem)
    have later : b ≠ first := fun equal => (List.nodup_cons.mp nodup).1 (equal ▸ mem)
    simp [push_prev,forth,later,other]

theorem Linked.pushes (linked : Linked r l) (once : l.Nodup) {xs : List ι} (fresh : (xs.reverse ++ l).Nodup) :
    Linked (xs.foldl Links.push r) (xs.reverse ++ l) := by
  induction xs generalizing r l with
  | nil => exact linked
  | cons x xs ih =>
    rw [List.reverse_cons,List.append_assoc] at fresh ⊢
    have inner : (x :: l).Nodup := (List.nodup_append.mp fresh).2.1
    exact ih (linked.push once (List.nodup_cons.mp inner).1) inner fresh

theorem unlink_next (proper : r.next (some x) ≠ some x) (a : Option ι) :
    (r.unlink x).next a = if a = r.prev (some x) then r.next (some x) else r.next a := by
  simp [unlink,setNext,setPrev,update_apply,Ne.symm proper]

theorem unlink_prev (a : Option ι) : (r.unlink x).prev a = if a = r.next (some x) then r.prev (some x) else r.prev a := by
  simp [unlink,setNext,setPrev,update_apply]

theorem Linked.unlink (linked : Linked r l) (once : l.Nodup) (mem : x ∈ l) : Linked (r.unlink x) (l.erase x) := by
  obtain ⟨before,after,-,rfl,erased⟩ := List.exists_erase_eq mem
  obtain ⟨left,previous,upTo⟩ : ∃ left previous, none :: before.map some = left ++ [previous] :=
    (List.eq_nil_or_concat' _).resolve_left (by simp)
  obtain ⟨following,right,path⟩ : ∃ following right, after.map some ++ [none] = following :: right :=
    List.exists_cons_of_ne_nil (by simp)
  obtain ⟨nodupBefore,nodupAfter,disjoint⟩ := List.nodup_append.mp once
  obtain ⟨apart,nodupAfter⟩ := List.nodup_cons.mp nodupAfter
  have nodupRight := nodup_path nodupAfter
  have nodupLeft : (none :: before.map some).Nodup := List.nodup_cons.mpr ⟨by simp,nodupBefore.map (Option.some_injective ι)⟩
  have whole : none :: ((before ++ x :: after).map some ++ [none]) = (left ++ [previous]) ++ some x :: following :: right := by
    simp [← upTo,← path]
  have shorter : none :: ((before ++ after).map some ++ [none]) = (left ++ [previous]) ++ following :: right := by
    simp [← upTo,← path]
  have previous_mem : previous ∈ none :: before.map some := by simp [upTo]
  have following_mem : following ∈ after.map some ++ [none] := by simp [path]
  unfold Linked at linked ⊢
  rw [erased,shorter]
  rw [whole] at linked
  obtain ⟨chainLeft,chain,joint⟩ := List.isChain_append.mp linked
  obtain ⟨into,backInto⟩ := joint previous (by simp) (some x) (by simp)
  obtain ⟨⟨out,backOut⟩,chainRight⟩ := List.isChain_cons_cons.mp chain
  have proper : r.next (some x) ≠ some x := by
    rw [out]
    rintro rfl
    simp [apart] at following_mem
  refine List.isChain_append.mpr ⟨chain_congr chainLeft (fun a mem => ?_) (fun b mem => ?_),
    chain_congr chainRight (fun a mem => ?_) (fun b mem => ?_),fun a last b first => ?_⟩
  · rw [unlink_next proper,backInto,if_neg]
    rintro rfl
    rw [upTo] at nodupLeft
    exact (List.nodup_append.mp nodupLeft).2.2 a (by simpa using mem) a (by simp) rfl
  · rw [unlink_prev,out,if_neg]
    rintro rfl
    rw [← upTo,List.tail_cons] at mem
    obtain ⟨y,inside,rfl⟩ := List.mem_map.mp mem
    exact disjoint y inside y (List.mem_cons_of_mem _ (by simpa using following_mem)) rfl
  · rw [unlink_next proper,backInto,if_neg]
    rintro rfl
    rw [← path,List.dropLast_concat] at mem
    obtain ⟨y,inside,rfl⟩ := List.mem_map.mp mem
    exact disjoint y (by simpa using previous_mem) y (List.mem_cons_of_mem _ inside) rfl
  · rw [unlink_prev,out,if_neg]
    rintro rfl
    rw [path] at nodupRight
    exact (List.nodup_cons.mp nodupRight).1 mem
  · obtain rfl : previous = a := by simpa using last
    obtain rfl : following = b := by simpa using first
    simp [unlink_next proper,unlink_prev,backInto,out]

end

end Links

end Xv6Ext2.Lib
