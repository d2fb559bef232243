import Xv6Ext2.Umalloc.Safe

/-! A program that uses the heap: any calls of `malloc` and `free`, with writes to what it was given in between. -/
namespace Xv6Ext2.Umalloc
open Lib Bio

/-- A pointer that `malloc` returned for a request, and the request. -/
structure Live where
  ptr : UInt32
  nbytes : UInt32

def Live.block (a : Live) : Block := ⟨a.ptr - headerSize,unitsFor a.nbytes⟩

def Live.owns (a : Live) (x : Nat) : Prop := a.ptr.toNat ≤ x ∧ x < a.ptr.toNat + a.nbytes.toNat

inductive Step (base : UInt32) : Process → List Live → Process → List Live → Prop
  | malloc {h h' : Process} {live : List Live} {n r : UInt32} (small : n.toNat < 2 ^ 30) (ran : malloc base n h = .ok (r,h'))
      (some : r ≠ 0) : Step base h live h' (⟨r,n⟩ :: live)
  | refused {h h' : Process} {live : List Live} {n : UInt32} (small : n.toNat < 2 ^ 30) (ran : malloc base n h = .ok (0,h')) :
      Step base h live h' live
  | free {h h' : Process} {live live' : List Live} {a : Live} (held : live.Perm (a :: live')) (ran : free a.ptr h = .ok ((),h')) :
      Step base h live h' live'
  /-- Its own bytes and its other data change. -/
  | write {h : Process} {live : List Live} {m : Nat → UInt8}
      (own : ∀ x, m x ≠ h.mem x → (∃ a ∈ live, a.owns x) ∨ ¬ Obtained h.got x ∧ ¬ (base.toNat ≤ x ∧ x < base.toNat + 8)) :
      Step base h live {h with mem := m} live
  /-- Its memory grows by other calls of `sbrk`, and the memory of the machine comes and goes. -/
  | grow {h : Process} {live : List Live} {sz : UInt32} (grants : List Bool) (more : h.sz ≤ sz) (low : sz.toNat < 2147483648) :
      Step base h live {h with sz := sz, grants := grants} live

inductive Reaches (base : UInt32) : Process → List Live → Prop
  | start {h : Process} (none : h.freep = 0) (got : h.got = []) (room : base.toNat + 8 ≤ h.sz.toNat) (low : h.sz.toNat < 2147483648) :
      Reaches base h []
  | step {h h' : Process} {live live' : List Live} (before : Reaches base h live) (step : Step base h live h' live') : Reaches base h' live'

/-- The heap of a program that has called `malloc`. -/
structure HeapSound (base : UInt32) (h : Process) (free : List Block) (live : List Live) : Prop where
  circle : Follows (nextOf h.mem) base (base :: free.map Block.addr)
  rover : h.freep ∈ base :: free.map Block.addr
  sizes : ∀ b ∈ free, unitsOf h.mem b.addr = b.units
  order : (base :: free.map Block.addr).Pairwise (· < ·)
  gaps : free.Pairwise fun a b => a.last < b.first
  bytes : ∀ a ∈ live, ∀ x, a.owns x → Obtained h.got x ∧ ∀ b ∈ free, ¬ (b.first ≤ x ∧ x < b.last)
  apart : live.Pairwise fun a b => ∀ x, ¬ (a.owns x ∧ b.owns x)
  total : 8 * ((free.map fun b => b.units.toNat).sum + (live.map fun a => a.block.units.toNat).sum) = (h.got.map fun g => g.2.toNat).sum

variable {base : UInt32} {h h' : Process} {free : List Block} {blocks blocks' : List Block} {live live' : List Live} {a : Live}

theorem Live.block_addr (a : Live) : a.block.addr + headerSize = a.ptr := UInt32.sub_add_cancel _ _

theorem Sound.perm (sound : Sound base h free blocks) (same : blocks.Perm blocks') : Sound base h free blocks' where
  blocks := sound.blocks.perm (same.append_left free)
  order := sound.order
  follows := sound.follows
  idle := sound.idle
  units b member := sound.units b ((same.append_left free).mem_iff.mpr member)
  rover := sound.rover

theorem Live.inside {a : Live} (all : Blocks base h blocks) (member : a.block ∈ blocks) (small : a.nbytes.toNat < 2 ^ 30) {x : Nat}
    (own : a.owns x) : a.block.first + 8 ≤ x ∧ x < a.block.last := by
  obtain ⟨above,below⟩ := own
  have units := toNat_unitsFor a.nbytes
  have low := all.low
  have place : a.block.first = a.block.addr.toNat := rfl
  have whole := a.block.last_eq
  have count : a.block.units = unitsFor a.nbytes := rfl
  have atA := all.inside _ member
  have address := congrArg UInt32.toNat a.block_addr
  rw [UInt32.toNat_add,show headerSize.toNat = 8 from rfl] at address
  rw [count,units] at whole
  omega

theorem Sound.write (sound : Sound base h free (live.map Live.block)) (small : ∀ a ∈ live, a.nbytes.toNat < 2 ^ 30) {m : Nat → UInt8}
    (own : ∀ x, m x ≠ h.mem x → (∃ a ∈ live, a.owns x) ∨ ¬ Obtained h.got x ∧ ¬ (base.toNat ≤ x ∧ x < base.toNat + 8)) :
    Sound base {h with mem := m} free (live.map Live.block) := by
  have all := sound.blocks
  -- a byte of a block is in its header or was not written
  have header (b : Block) (member : b ∈ free ++ live.map Live.block) (i : Nat) (inside : i < 8) : m (b.first + i) = h.mem (b.first + i) := by
    by_contra changed
    have atB := all.inside b member
    have whole := b.last_eq
    rcases own _ changed with ⟨a,among,owns⟩ | ⟨never,-⟩
    · have held : a.block ∈ free ++ live.map Live.block := List.mem_append_right _ (List.mem_map_of_mem among)
      have payload := Live.inside all held (small a among) owns
      by_cases same : a.block = b
      · rw [same] at payload
        omega
      · have apart := all.apart.forall held member same
        rw [Block.Apart] at apart
        omega
    · exact never (all.obtained b member _ (by omega) (by omega))
  have idle (i : Nat) (inside : i < 8) : m (base.toNat + i) = h.mem (base.toNat + i) := by
    by_contra changed
    rcases own _ changed with ⟨a,among,owns⟩ | ⟨-,never⟩
    · have held : a.block ∈ free ++ live.map Live.block := List.mem_append_right _ (List.mem_map_of_mem among)
      have payload := Live.inside all held (small a among) owns
      have atA := all.inside _ held
      omega
    · exact never (by omega)
  have fields (p : UInt32) (same : ∀ i < 8, m (p.toNat + i) = h.mem (p.toNat + i)) : nextOf m p = nextOf h.mem p ∧ unitsOf m p = unitsOf h.mem p := by
    refine ⟨u32_congr _ _ _ _ fun i inside => same i (by omega),u32_congr _ _ _ _ fun i inside => ?_⟩
    have byte := same (4 + i) (by omega)
    rwa [← Nat.add_assoc] at byte
  refine ⟨all.congr rfl rfl,sound.order,?_,?_,?_,sound.rover⟩
  · refine sound.follows.congr ?_
    intro p member
    rcases List.mem_cons.mp member with rfl | inside
    · exact (fields _ idle).1
    · obtain ⟨b,there,rfl⟩ := List.mem_map.mp inside
      exact (fields _ (header b (List.mem_append_left _ there))).1
  · exact (fields _ idle).2.trans sound.idle
  · intro b member
    exact (fields _ (header b member)).2.trans (sound.units b member)

theorem Sound.grow (sound : Sound base h free blocks) {sz : UInt32} (grants : List Bool) (more : h.sz ≤ sz) (low : sz.toNat < 2147483648) :
    Sound base {h with sz := sz, grants := grants} free blocks := by
  have more := UInt32.le_iff_toNat_le.mp more
  have room := sound.blocks.room
  refine ⟨⟨low,room.trans more,sound.blocks.apart,?_,sound.blocks.obtained,sound.blocks.total⟩,sound.order,sound.follows,sound.idle,
    sound.units,sound.rover⟩
  intro b member
  have atB := sound.blocks.inside b member
  exact ⟨atB.1,atB.2.1,atB.2.2.trans more⟩

structure Kept (base : UInt32) (h : Process) (live : List Live) : Prop where
  ready : Ready base h (live.map Live.block)
  small : ∀ a ∈ live, a.nbytes.toNat < 2 ^ 30

theorem Kept.malloc (linked : base ≠ 0) (kept : Kept base h live) {n : UInt32} (small : n.toNat < 2 ^ 30) :
    ∃ r h', malloc base n h = .ok (r,h') ∧ (r = 0 → Kept base h' live) ∧ (r ≠ 0 → Kept base h' (⟨r,n⟩ :: live)) := by
  have units := toNat_unitsFor n
  have some : 0 < (unitsFor n).toNat := by omega
  have int : 8 * (unitsFor n).toNat < 2147483648 := by omega
  obtain ⟨r,h',free',ran,-,⟨rfl,sound⟩ | ⟨b,rfl,count,sound⟩⟩ := malloc_run linked kept.ready some int
  · exact ⟨0,h',ran,fun _ => ⟨.used sound,kept.small⟩,fun real => absurd rfl real⟩
  · refine ⟨_,h',ran,?_,?_⟩
    · intro zero
      have low := sound.blocks.low
      have atB := sound.blocks.inside b (by simp)
      have whole := b.last_eq
      have place : b.first = b.addr.toNat := rfl
      have value := congrArg UInt32.toNat zero
      rw [UInt32.toNat_add,show headerSize.toNat = 8 from rfl,UInt32.toNat_zero] at value
      omega
    · intro _
      have same : (⟨b.addr + headerSize,n⟩ : Live).block = b := by
        rw [Live.block,UInt32.add_sub_cancel,← count]
      refine ⟨?_,?_⟩
      · rw [List.map_cons,same]
        exact .used sound
      · intro a member
        rcases List.mem_cons.mp member with rfl | old
        · exact small
        · exact kept.small a old

theorem Kept.freed (kept : Kept base h live) (held : live.Perm (a :: live')) : ∃ h', Umalloc.free a.ptr h = .ok ((),h') ∧ Kept base h' live' := by
  have blocks := held.map Live.block
  have small : ∀ a ∈ live', a.nbytes.toNat < 2 ^ 30 := fun b member => kept.small b (held.mem_iff.mpr (List.mem_cons_of_mem _ member))
  generalize same : live.map Live.block = bs at blocks
  have ready := kept.ready
  rw [same] at ready
  cases ready with
  | unused none got room low => exact absurd blocks.symm.eq_nil (List.cons_ne_nil _ _)
  | used sound =>
    obtain ⟨m,p,free',ran,sound',-⟩ := free_run (sound.perm blocks)
    rw [a.block_addr] at ran
    exact ⟨_,ran,.used sound',small⟩

theorem Step.keeps (linked : base ≠ 0) (kept : Kept base h live) (step : Step base h live h' live') : Kept base h' live' := by
  cases step with
  | malloc small ran some =>
    obtain ⟨r,h₁,ran',-,taken⟩ := kept.malloc linked small
    rw [ran] at ran'
    obtain ⟨rfl,rfl⟩ := Prod.mk.inj (Except.ok.inj ran')
    exact taken some
  | refused small ran =>
    obtain ⟨r,h₁,ran',refused,-⟩ := kept.malloc linked small
    rw [ran] at ran'
    obtain ⟨rfl,rfl⟩ := Prod.mk.inj (Except.ok.inj ran')
    exact refused rfl
  | free held ran =>
    obtain ⟨h₁,ran',after⟩ := kept.freed held
    rw [ran] at ran'
    obtain ⟨-,rfl⟩ := Prod.mk.inj (Except.ok.inj ran')
    exact after
  | write own =>
    obtain ⟨ready,small⟩ := kept
    generalize same : live.map Live.block = bs at ready
    cases ready with
    | unused none got room low => exact ⟨by rw [same]; exact .unused none got room low,small⟩
    | used sound =>
      subst same
      exact ⟨.used (sound.write small own),small⟩
  | grow grants more low =>
    obtain ⟨ready,small⟩ := kept
    generalize same : live.map Live.block = bs at ready
    cases ready with
    | unused none got room _ =>
      have more := UInt32.le_iff_toNat_le.mp more
      exact ⟨by rw [same]; exact .unused none got (room.trans more) low,small⟩
    | used sound =>
      subst same
      exact ⟨.used (sound.grow grants more low),small⟩

theorem Reaches.kept (linked : base ≠ 0) (reaches : Reaches base h live) : Kept base h live := by
  induction reaches with
  | start none got room low => exact ⟨.unused none got room low,fun a never => absurd never List.not_mem_nil⟩
  | step _ step ih => exact step.keeps linked ih

theorem Sound.heap (sound : Sound base h free (live.map Live.block)) (small : ∀ a ∈ live, a.nbytes.toNat < 2 ^ 30) :
    HeapSound base h free live := by
  have all := sound.blocks
  have held (a : Live) (member : a ∈ live) : a.block ∈ free ++ live.map Live.block := List.mem_append_right _ (List.mem_map_of_mem member)
  obtain ⟨-,apart,across⟩ := List.pairwise_append.mp all.apart
  refine ⟨sound.follows,sound.rover,?_,sound.sorted,sound.order,?_,?_,?_⟩
  · intro b member
    exact sound.units b (List.mem_append_left _ member)
  · intro a member x own
    have payload := Live.inside all (held a member) (small a member) own
    refine ⟨all.obtained _ (held a member) x (by omega) payload.2,?_⟩
    rintro b there ⟨above,below⟩
    have apart := across b there a.block (List.mem_map_of_mem member)
    rw [Block.Apart] at apart
    omega
  · refine (List.pairwise_map.mp apart).imp_of_mem ?_
    rintro a b memberA memberB separate x ⟨ownA,ownB⟩
    have payloadA := Live.inside all (held a memberA) (small a memberA) ownA
    have payloadB := Live.inside all (held b memberB) (small b memberB) ownB
    rw [Block.Apart] at separate
    omega
  · rw [← all.total,List.map_append,List.sum_append,List.map_map]
    rfl

/-- In every run the calls return, and the heap is sound. -/
theorem heap_stays_sound (linked : base ≠ 0) (reaches : Reaches base h live) :
    (∀ n : UInt32, n.toNat < 2 ^ 30 → ∃ r h', malloc base n h = .ok (r,h')) ∧
    (∀ a ∈ live, ∃ h', Umalloc.free a.ptr h = .ok ((),h')) ∧
    (h.freep = 0 ∧ h.got = [] ∧ live = [] ∨ ∃ free, HeapSound base h free live) := by
  have kept := reaches.kept linked
  refine ⟨?_,?_,?_⟩
  · intro n small
    obtain ⟨r,h',ran,-⟩ := kept.malloc linked small
    exact ⟨r,h',ran⟩
  · intro a member
    obtain ⟨l,l',rfl⟩ := List.append_of_mem member
    obtain ⟨h',ran,-⟩ := kept.freed List.perm_middle
    exact ⟨h',ran⟩
  · obtain ⟨ready,small⟩ := kept
    generalize same : live.map Live.block = bs at ready
    cases ready with
    | unused none got room low => exact .inl ⟨none,got,List.map_eq_nil_iff.mp same⟩
    | used sound =>
      subst same
      exact .inr ⟨_,sound.heap small⟩

theorem heap_stays_sound_hundred : ∃ h free, Reaches 4096 h [⟨40856,100⟩] ∧ HeapSound 4096 h free [⟨40856,100⟩] := by
  have seen : probe (malloc 4096 100) twoPages (fun r _ => some r) = some 40856 := by decide +kernel
  obtain ⟨r,h,ran,value⟩ := probe_eq_some seen
  obtain rfl := Option.some.inj value
  have reaches : Reaches 4096 h [⟨40856,100⟩] :=
    .step (.start rfl rfl (by decide) (by decide)) (.malloc (by decide) ran (by decide))
  obtain ⟨-,-,⟨-,-,none⟩ | ⟨free,sound⟩⟩ := heap_stays_sound (by decide) reaches
  · exact absurd none (List.cons_ne_nil _ _)
  · exact ⟨h,free,reaches,sound⟩

end Xv6Ext2.Umalloc
