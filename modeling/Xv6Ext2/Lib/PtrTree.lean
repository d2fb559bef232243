import Mathlib

/-! Trees of pointers: nodes of a type with a null, roots indexed by `ι`, and the children of a node
indexed by `κ`. A slot is a place where a pointer stands, and `ptr` reads it. Trees are cut off at a
depth for each root; below it a node is plain data and its children mean nothing. -/
namespace Xv6Ext2.Lib

/-- A root and the indices followed from it, the last one first. -/
structure Slot (ι κ : Type) where
  root : ι
  path : List κ
  deriving DecidableEq

namespace Slot

variable {ι κ α : Type}

/-- The slot is within the depth of its tree. -/
def Within (depth : ι → Nat) (σ : Slot ι κ) : Prop := σ.path.length ≤ depth σ.root

/-- The pointer in the slot is to data, not to further pointers. -/
def Leaf (depth : ι → Nat) (σ : Slot ι κ) : Prop := σ.path.length = depth σ.root

def Inner (depth : ι → Nat) (σ : Slot ι κ) : Prop := σ.path.length < depth σ.root

theorem Leaf.within {depth : ι → Nat} {σ : Slot ι κ} (leaf : Leaf depth σ) : Within depth σ := Nat.le_of_eq leaf

theorem Inner.within {depth : ι → Nat} {σ : Slot ι κ} (inner : Inner depth σ) : Within depth σ := Nat.le_of_lt inner

theorem Within.parent {depth : ι → Nat} {i : ι} {k : κ} {path : List κ} (within : Within depth ⟨i,k :: path⟩) :
    Inner depth ⟨i,path⟩ := within

section Ptr

variable [Zero α] [DecidableEq α]

def follow (root : α) (child : α → κ → α) : List κ → α
  | [] => root
  | k :: path => if follow root child path = 0 then 0 else child (follow root child path) k

def ptr (roots : ι → α) (child : α → κ → α) (σ : Slot ι κ) : α := follow (roots σ.root) child σ.path

variable {depth : ι → Nat} {roots roots' : ι → α} {child child' : α → κ → α}

@[simp] theorem ptr_root (i : ι) : ptr roots child ⟨i,[]⟩ = roots i := rfl

theorem ptr_child (i : ι) (k : κ) (path : List κ) :
    ptr roots child ⟨i,k :: path⟩ =
      if ptr roots child ⟨i,path⟩ = 0 then 0 else child (ptr roots child ⟨i,path⟩) k := rfl

theorem ptr_child_of_ne {i : ι} {path : List κ} (k : κ) (node : ptr roots child ⟨i,path⟩ ≠ 0) :
    ptr roots child ⟨i,k :: path⟩ = child (ptr roots child ⟨i,path⟩) k := by
  rw [ptr_child,if_neg node]

/-- Pointers depend on the children of inner nodes only. -/
theorem ptr_congr (same : ∀ σ, Inner depth σ → ptr roots child σ ≠ 0 → ∀ k,
      child' (ptr roots child σ) k = child (ptr roots child σ) k)
    (σ : Slot ι κ) (within : Within depth σ) : ptr roots child' σ = ptr roots child σ := by
  obtain ⟨i,path⟩ := σ
  induction path with
  | nil => rfl
  | cons k path ih =>
    have above := ih within.parent.within
    rw [ptr_child,ptr_child,above]
    split_ifs with empty
    · rfl
    · exact same ⟨i,path⟩ within.parent empty k

/-- A node without children put into the empty slot `τ` changes what that slot holds and no other. -/
theorem ptr_attach [DecidableEq ι] [DecidableEq κ] {τ : Slot ι κ} {node : α} (some_node : node ≠ 0)
    (empty : ptr roots child τ = 0) (below : ∀ i k path, τ = ⟨i,k :: path⟩ → ptr roots child ⟨i,path⟩ ≠ 0)
    (root : ∀ i, roots' i = if τ = ⟨i,[]⟩ then node else roots i)
    (childless : ∀ k, child' node k = 0)
    (edge : ∀ i k path, Inner depth ⟨i,path⟩ → ptr roots child ⟨i,path⟩ ≠ 0 →
      child' (ptr roots child ⟨i,path⟩) k =
        if τ = ⟨i,k :: path⟩ then node else child (ptr roots child ⟨i,path⟩) k)
    (σ : Slot ι κ) (within : Within depth σ) :
    ptr roots' child' σ = if σ = τ then node else ptr roots child σ := by
  obtain ⟨i,path⟩ := σ
  induction path with
  | nil => simp only [ptr_root,root i,eq_comm]
  | cons k path ih =>
    have above := ih within.parent.within
    by_cases here : (⟨i,path⟩ : Slot ι κ) = τ
    · -- the new node has no children, and there was nothing below its empty slot
      have longer : (⟨i,k :: path⟩ : Slot ι κ) ≠ τ := by
        intro same
        rw [← here] at same
        exact absurd (congrArg (fun σ : Slot ι κ => σ.path.length) same) (by simp)
      rw [if_pos here] at above
      rw [ptr_child_of_ne k (above ▸ some_node),above,childless,if_neg longer,ptr_child,here,empty,if_pos rfl]
    · rw [if_neg here] at above
      rw [ptr_child,above]
      by_cases missing : ptr roots child ⟨i,path⟩ = 0
      · have other : (⟨i,k :: path⟩ : Slot ι κ) ≠ τ := fun same => below i k path same.symm missing
        rw [if_pos missing,if_neg other,ptr_child,if_pos missing]
      · rw [if_neg missing,edge i k path within.parent missing,ptr_child_of_ne k missing]
        simp only [eq_comm]

end Ptr

/-- No two slots hold the same pointer. -/
def Distinct [Zero α] (depth : ι → Nat) (p : Slot ι κ → α) : Prop :=
  ∀ σ τ, Within depth σ → Within depth τ → p σ ≠ 0 → p σ = p τ → σ = τ

theorem Distinct.attach [Zero α] [DecidableEq ι] [DecidableEq κ] {depth : ι → Nat}
    {p p' : Slot ι κ → α} {τ : Slot ι κ} {node : α}
    (distinct : Distinct depth p) (fresh : ∀ σ, Within depth σ → p σ ≠ node)
    (attached : ∀ σ, Within depth σ → p' σ = if σ = τ then node else p σ) : Distinct depth p' := by
  intro σ ρ inside inside' present same
  rw [attached σ inside,attached ρ inside'] at same
  rw [attached σ inside] at present
  by_cases left : σ = τ <;> by_cases right : ρ = τ
  · rw [left,right]
  · rw [if_pos left,if_neg right] at same
    exact absurd same.symm (fresh ρ inside')
  · rw [if_neg left,if_pos right] at same
    exact absurd same (fresh σ inside)
  · rw [if_neg left,if_neg right] at same
    rw [if_neg left] at present
    exact distinct σ ρ inside inside' present same

end Slot

end Xv6Ext2.Lib
