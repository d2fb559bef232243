import Xv6Ext2.Lib.Follows
import Xv6Ext2.Umalloc.Model

/-! The heap of a process: blocks of the memory that `sbrk` gave, apart from each other, free or in use. The free ones are
on a circular list with `base`, in the order of their addresses. -/
namespace Xv6Ext2.Umalloc
open Lib Bio
open Vm (kernBase pages)

structure Block where
  addr : UInt32
  units : UInt32

namespace Block

def first (b : Block) : Nat := b.addr.toNat

def last (b : Block) : Nat := b.addr.toNat + 8 * b.units.toNat

def Apart (a b : Block) : Prop := a.last ≤ b.first ∨ b.last ≤ a.first

theorem Apart.symm {a b : Block} (apart : a.Apart b) : b.Apart a := Or.symm apart

instance : Std.Symm Apart := ⟨fun _ _ apart => apart.symm⟩

theorem last_eq (b : Block) : b.last = b.first + 8 * b.units.toNat := rfl

def join (a b : Block) : Block := ⟨a.addr,a.units + b.units⟩

def upper (b : Block) (n : UInt32) : Block := ⟨b.addr + headerSize * (b.units - n),n⟩

def lower (b : Block) (n : UInt32) : Block := ⟨b.addr,b.units - n⟩

end Block

/-- Memory that `sbrk` gave. -/
def Obtained (got : List (UInt32 × UInt32)) (x : Nat) : Prop := ∃ g ∈ got, g.1.toNat ≤ x ∧ x < g.1.toNat + g.2.toNat

/-- The blocks that memory from `sbrk` is divided into. -/
structure Blocks (base : UInt32) (h : Process) (bs : List Block) : Prop where
  low : h.sz.toNat < 2147483648
  room : base.toNat + 8 ≤ h.sz.toNat
  apart : bs.Pairwise Block.Apart
  inside : ∀ b ∈ bs, base.toNat + 8 ≤ b.first ∧ 0 < b.units.toNat ∧ b.last ≤ h.sz.toNat
  obtained : ∀ b ∈ bs, ∀ x, b.first ≤ x → x < b.last → Obtained h.got x
  total : 8 * (bs.map fun b => b.units.toNat).sum = (h.got.map fun g => g.2.toNat).sum

namespace Blocks

variable {base : UInt32} {h h' : Process} {bs bs' : List Block} {a b : Block}

theorem perm (blocks : Blocks base h bs) (same : bs.Perm bs') : Blocks base h bs' where
  low := blocks.low
  room := blocks.room
  apart := (same.pairwise_iff fun apart => apart.symm).mp blocks.apart
  inside b member := blocks.inside b (same.mem_iff.mpr member)
  obtained b member := blocks.obtained b (same.mem_iff.mpr member)
  total := by
    rw [← blocks.total,(same.map _).sum_eq]

theorem congr (blocks : Blocks base h bs) (size : h'.sz = h.sz) (got : h'.got = h.got) : Blocks base h' bs := by
  refine ⟨?_,?_,blocks.apart,?_,?_,?_⟩
  · rw [size]
    exact blocks.low
  · rw [size]
    exact blocks.room
  · rw [size]
    exact blocks.inside
  · rw [got]
    exact blocks.obtained
  · rw [got]
    exact blocks.total

theorem toNat_sum (blocks : Blocks base h (a :: b :: bs)) (touch : a.last = b.first) : (a.join b).units.toNat = a.units.toNat + b.units.toNat := by
  have low := blocks.low
  obtain ⟨_,_,high⟩ := blocks.inside b (by simp)
  have wholeA := a.last_eq
  have wholeB := b.last_eq
  rw [Block.join,UInt32.toNat_add]
  omega

theorem join_last (blocks : Blocks base h (a :: b :: bs)) (touch : a.last = b.first) : (a.join b).last = b.last := by
  have first : (a.join b).first = a.first := rfl
  have wholeA := a.last_eq
  have wholeB := b.last_eq
  rw [Block.last_eq,blocks.toNat_sum touch,first]
  omega

theorem join (blocks : Blocks base h (a :: b :: bs)) (touch : a.last = b.first) : Blocks base h (a.join b :: bs) := by
  have sum := blocks.toNat_sum touch
  have wholeA := a.last_eq
  have wholeB := b.last_eq
  have first : (a.join b).first = a.first := rfl
  have last := blocks.join_last touch
  have atA := blocks.inside a (by simp)
  have atB := blocks.inside b (by simp)
  obtain ⟨ofA,more⟩ := List.pairwise_cons.mp blocks.apart
  obtain ⟨ofB,rest⟩ := List.pairwise_cons.mp more
  refine ⟨blocks.low,blocks.room,List.pairwise_cons.mpr ⟨?_,rest⟩,?_,?_,?_⟩
  · intro c member
    have fromA := ofA c (List.mem_cons_of_mem _ member)
    have fromB := ofB c member
    have atC := blocks.inside c (by simp [member])
    rw [Block.Apart] at fromA fromB ⊢
    have wholeC := c.last_eq
    rw [first,last]
    omega
  · intro c member
    rcases List.mem_cons.mp member with rfl | old
    · rw [first,last,sum]
      omega
    · exact blocks.inside c (by simp [old])
  · intro c member x low high
    rcases List.mem_cons.mp member with rfl | old
    · rw [first] at low
      rw [last] at high
      by_cases early : x < a.last
      · exact blocks.obtained a (by simp) x low early
      · exact blocks.obtained b (by simp) x (by omega) high
    · exact blocks.obtained c (by simp [old]) x low high
  · rw [← blocks.total,List.map_cons,List.map_cons,List.map_cons,List.sum_cons,List.sum_cons,List.sum_cons,sum]
    omega

theorem split {n : UInt32} (blocks : Blocks base h (b :: bs)) (some : 0 < n.toNat) (less : n.toNat < b.units.toNat) :
    Blocks base h (b.lower n :: b.upper n :: bs) := by
  have low := blocks.low
  have atB := blocks.inside b (by simp)
  rw [Block.last,Block.first] at atB
  have eight : headerSize.toNat = 8 := rfl
  have rest : (b.units - n).toNat = b.units.toNat - n.toNat := by
    rw [UInt32.toNat_sub]
    omega
  have start : (b.upper n).addr.toNat = b.addr.toNat + 8 * (b.units.toNat - n.toNat) := by
    rw [Block.upper,UInt32.toNat_add,UInt32.toNat_mul,rest,eight]
    omega
  have lowFirst : (b.lower n).first = b.first := rfl
  have lowUnits : (b.lower n).units.toNat = b.units.toNat - n.toNat := rest
  have lowLast : (b.lower n).last = b.first + 8 * (b.units.toNat - n.toNat) := by
    rw [Block.last,lowUnits]
    rfl
  have upFirst : (b.upper n).first = b.first + 8 * (b.units.toNat - n.toNat) := start
  have upUnits : (b.upper n).units.toNat = n.toNat := rfl
  have upLast : (b.upper n).last = b.last := by
    rw [Block.last,start,upUnits,Block.last]
    omega
  have whole : b.last = b.first + 8 * b.units.toNat := rfl
  have place : b.first = b.addr.toNat := rfl
  obtain ⟨ofB,others⟩ := List.pairwise_cons.mp blocks.apart
  have away (c : Block) (member : c ∈ bs) : (b.lower n).Apart c ∧ (b.upper n).Apart c := by
    have old := ofB c member
    rw [Block.Apart] at old
    rw [Block.Apart,Block.Apart,lowFirst,lowLast,upFirst,upLast]
    omega
  refine ⟨low,blocks.room,List.pairwise_cons.mpr ⟨?_,List.pairwise_cons.mpr ⟨fun c member => (away c member).2,others⟩⟩,?_,?_,?_⟩
  · intro c member
    rcases List.mem_cons.mp member with rfl | old
    · rw [Block.Apart,lowLast,upFirst]
      exact .inl le_rfl
    · exact (away c old).1
  · intro c member
    rcases List.mem_cons.mp member with rfl | member
    · rw [lowFirst,lowLast,lowUnits]
      omega
    · rcases List.mem_cons.mp member with rfl | old
      · rw [upFirst,upLast,upUnits]
        omega
      · exact blocks.inside c (by simp [old])
  · intro c member x above below
    rcases List.mem_cons.mp member with rfl | member
    · rw [lowFirst] at above
      rw [lowLast] at below
      exact blocks.obtained b (by simp) x above (by omega)
    · rcases List.mem_cons.mp member with rfl | old
      · rw [upFirst] at above
        rw [upLast] at below
        exact blocks.obtained b (by simp) x (by omega) below
      · exact blocks.obtained c (by simp [old]) x above below
  · rw [← blocks.total,List.map_cons,List.map_cons,List.map_cons,List.sum_cons,List.sum_cons,List.sum_cons,lowUnits,upUnits]
    omega

theorem extend {n : UInt32} (blocks : Blocks base h bs) (size : h'.sz.toNat = h.sz.toNat + 8 * n.toNat) (low : h'.sz.toNat < 2147483648)
    (some : 0 < n.toNat) {bytes : UInt32} (length : bytes.toNat = 8 * n.toNat) (got : h'.got = (h.sz,bytes) :: h.got) :
    Blocks base h' (⟨h.sz,n⟩ :: bs) := by
  have room := blocks.room
  have first : (⟨h.sz,n⟩ : Block).first = h.sz.toNat := rfl
  have last : (⟨h.sz,n⟩ : Block).last = h'.sz.toNat := by
    rw [size]
    rfl
  refine ⟨low,by omega,List.pairwise_cons.mpr ⟨?_,blocks.apart⟩,?_,?_,?_⟩
  · intro c member
    exact .inr (blocks.inside c member).2.2
  · intro c member
    rcases List.mem_cons.mp member with rfl | old
    · rw [first,last]
      have units : (⟨h.sz,n⟩ : Block).units.toNat = n.toNat := rfl
      omega
    · have atC := blocks.inside c old
      omega
  · intro c member x above below
    rw [Obtained,got]
    rcases List.mem_cons.mp member with rfl | old
    · rw [first] at above
      rw [last] at below
      refine ⟨(h.sz,bytes),List.mem_cons_self,above,?_⟩
      dsimp only
      omega
    · obtain ⟨g,there,within⟩ := blocks.obtained c old x above below
      exact ⟨g,List.mem_cons_of_mem _ there,within⟩
  · rw [got,List.map_cons,List.map_cons,List.sum_cons,List.sum_cons,← blocks.total]
    dsimp only
    omega

end Blocks

section

variable {m : Nat → UInt8} {p q w : UInt32}

def nextOf (m : Nat → UInt8) (p : UInt32) : UInt32 := u32 m p.toNat

def unitsOf (m : Nat → UInt8) (p : UInt32) : UInt32 := u32 m (p.toNat + 4)

def withNext (m : Nat → UInt8) (p q : UInt32) : Nat → UInt8 := poke m p.toNat 4 (leByte q.toNat)

def withUnits (m : Nat → UInt8) (p n : UInt32) : Nat → UInt8 := poke m (p.toNat + 4) 4 (leByte n.toNat)

def Away (p q : UInt32) : Prop := p.toNat + 8 ≤ q.toNat ∨ q.toNat + 8 ≤ p.toNat

theorem Away.symm (away : Away p q) : Away q p := Or.symm away

theorem u32_poke (m : Nat → UInt8) (a : Nat) (w : UInt32) : u32 (poke m a 4 (leByte w.toNat)) a = w :=
  u32_stored _ _ _ fun _ small => poke_inside m a 4 _ small

theorem u32_poke_other {a b : Nat} (other : a + 4 ≤ b ∨ b + 4 ≤ a) : u32 (poke m a 4 (leByte w.toNat)) b = u32 m b :=
  u32_congr _ _ _ _ fun _ small => poke_outside _ _ _ _ (by omega)

@[simp] theorem nextOf_withNext : nextOf (withNext m p q) p = q := u32_poke m _ q

@[simp] theorem unitsOf_withUnits : unitsOf (withUnits m p w) p = w := u32_poke m _ w

@[simp] theorem nextOf_withUnits : nextOf (withUnits m p w) p = nextOf m p := u32_poke_other (by omega)

@[simp] theorem unitsOf_withNext : unitsOf (withNext m p q) p = unitsOf m p := u32_poke_other (by omega)

theorem nextOf_withNext_away {r : UInt32} (away : Away p r) : nextOf (withNext m p q) r = nextOf m r := by
  rw [Away] at away
  exact u32_poke_other (by omega)

theorem unitsOf_withNext_away {r : UInt32} (away : Away p r) : unitsOf (withNext m p q) r = unitsOf m r := by
  rw [Away] at away
  exact u32_poke_other (by omega)

theorem nextOf_withUnits_away {r : UInt32} (away : Away p r) : nextOf (withUnits m p w) r = nextOf m r := by
  rw [Away] at away
  exact u32_poke_other (by omega)

theorem unitsOf_withUnits_away {r : UInt32} (away : Away p r) : unitsOf (withUnits m p w) r = unitsOf m r := by
  rw [Away] at away
  exact u32_poke_other (by omega)

def Touches (m m' : Nat → UInt8) (p : UInt32) : Prop := ∀ q, Away p q → nextOf m' q = nextOf m q ∧ unitsOf m' q = unitsOf m q

theorem Touches.next (m : Nat → UInt8) (p q : UInt32) : Touches m (withNext m p q) p :=
  fun _ away => ⟨nextOf_withNext_away away,unitsOf_withNext_away away⟩

theorem Touches.units (m : Nat → UInt8) (p w : UInt32) : Touches m (withUnits m p w) p :=
  fun _ away => ⟨nextOf_withUnits_away away,unitsOf_withUnits_away away⟩

theorem Touches.trans {m' m'' : Nat → UInt8} (first : Touches m m' p) (second : Touches m' m'' p) : Touches m m'' p :=
  fun q away => ⟨(second q away).1.trans (first q away).1,(second q away).2.trans (first q away).2⟩

end

section

variable {h : Process} {p q w : UInt32}

def Mapped (h : Process) (p : UInt32) : Prop := h.sz.toNat < 2147483648 ∧ p.toNat + 8 ≤ h.sz.toNat

theorem Mapped.word (mapped : Mapped h p) : p.toNat + 4 ≤ 4096 * pages h.sz ∧ (p + 4).toNat = p.toNat + 4 ∧ p.toNat + 4 + 4 ≤ 4096 * pages h.sz := by
  obtain ⟨low,inside⟩ := mapped
  have four : (4 : UInt32).toNat = 4 := rfl
  rw [pages,UInt32.toNat_add,four]
  omega

theorem ptr_run (mapped : Mapped h p) : ptr p h = .ok (nextOf h.mem p,h) := if_pos mapped.word.1

theorem setPtr_run (mapped : Mapped h p) : setPtr p q h = .ok ((),{h with mem := withNext h.mem p q}) := if_pos mapped.word.1

theorem size_run (mapped : Mapped h p) : size p h = .ok (unitsOf h.mem p,h) := by
  obtain ⟨_,sum,inside⟩ := mapped.word
  rw [size,load,sum,if_pos inside]
  rfl

theorem setSize_run (mapped : Mapped h p) : setSize p w h = .ok ((),{h with mem := withUnits h.mem p w}) := by
  obtain ⟨_,sum,inside⟩ := mapped.word
  rw [setSize,store,sum,if_pos inside]
  rfl

end

structure Sound (base : UInt32) (h : Process) (free live : List Block) : Prop where
  blocks : Blocks base h (free ++ live)
  order : free.Pairwise fun a b => a.last < b.first
  follows : Follows (nextOf h.mem) base (base :: free.map Block.addr)
  idle : unitsOf h.mem base = 0
  units : ∀ b ∈ free ++ live, unitsOf h.mem b.addr = b.units
  rover : h.freep ∈ base :: free.map Block.addr

section

variable {base : UInt32} {h : Process} {free live bs : List Block} {a b : Block}

theorem Blocks.mapped (blocks : Blocks base h bs) (member : b ∈ bs) : Mapped h b.addr := by
  obtain ⟨_,some,inside⟩ := blocks.inside b member
  have whole := b.last_eq
  have place : b.first = b.addr.toNat := rfl
  exact ⟨blocks.low,by omega⟩

theorem Blocks.mapped_base (blocks : Blocks base h bs) : Mapped h base := ⟨blocks.low,blocks.room⟩

theorem Blocks.away_base (blocks : Blocks base h bs) (member : b ∈ bs) : Away base b.addr := .inl (blocks.inside b member).1

theorem Blocks.away (blocks : Blocks base h bs) (memberA : a ∈ bs) (memberB : b ∈ bs) (other : a.addr ≠ b.addr) : Away a.addr b.addr := by
  have apart := blocks.apart.forall memberA memberB fun same => other (same ▸ rfl)
  obtain ⟨_,someA,_⟩ := blocks.inside a memberA
  obtain ⟨_,someB,_⟩ := blocks.inside b memberB
  have wholeA := a.last_eq
  have wholeB := b.last_eq
  have placeA : a.first = a.addr.toNat := rfl
  have placeB : b.first = b.addr.toNat := rfl
  rw [Block.Apart] at apart
  rw [Away]
  omega

theorem Blocks.addr_ne (blocks : Blocks base h (a :: bs)) (member : b ∈ bs) : a.addr ≠ b.addr := by
  intro same
  have apart := (List.pairwise_cons.mp blocks.apart).1 b member
  obtain ⟨_,someA,_⟩ := blocks.inside a List.mem_cons_self
  obtain ⟨_,someB,_⟩ := blocks.inside b (List.mem_cons_of_mem _ member)
  have wholeA := a.last_eq
  have wholeB := b.last_eq
  have place : a.first = b.first := congrArg UInt32.toNat same
  rw [Block.Apart] at apart
  omega

theorem Sound.sorted (sound : Sound base h free live) : (base :: free.map Block.addr).Pairwise (· < ·) := by
  refine List.pairwise_cons.mpr ⟨?_,?_⟩
  · intro p member
    obtain ⟨b,inside,is⟩ := List.mem_map.mp member
    have atB := sound.blocks.inside b (List.mem_append_left _ inside)
    have place : b.first = b.addr.toNat := rfl
    rw [← is,UInt32.lt_iff_toNat_lt]
    omega
  · refine List.pairwise_map.mpr (sound.order.imp ?_)
    intro a b before
    have wholeA := a.last_eq
    have placeA : a.first = a.addr.toNat := rfl
    have placeB : b.first = b.addr.toNat := rfl
    rw [UInt32.lt_iff_toNat_lt]
    omega

theorem Sound.mapped (sound : Sound base h free live) {p : UInt32} (member : p ∈ base :: free.map Block.addr) : Mapped h p := by
  rcases List.mem_cons.mp member with rfl | inside
  · exact sound.blocks.mapped_base
  · obtain ⟨b,there,is⟩ := List.mem_map.mp inside
    exact is ▸ sound.blocks.mapped (List.mem_append_left _ there)

theorem length_le {lo hi : Nat} (order : free.Pairwise fun a b => a.last < b.first)
    (inside : ∀ b ∈ free, lo ≤ b.first ∧ 0 < b.units.toNat ∧ b.last ≤ hi) (room : lo ≤ hi) : lo + 8 * free.length ≤ hi := by
  induction free generalizing lo with
  | nil => exact room
  | cons b free ih =>
    obtain ⟨before,order⟩ := List.pairwise_cons.mp order
    obtain ⟨above,some,below⟩ := inside b List.mem_cons_self
    have whole := b.last_eq
    have rest : b.last + 8 * free.length ≤ hi := by
      refine ih order ?_ below
      intro c member
      have atC := inside c (List.mem_cons_of_mem _ member)
      have after := before c member
      omega
    rw [List.length_cons]
    omega

theorem Sound.few (sound : Sound base h free live) : 8 * free.length + 8 ≤ h.sz.toNat := by
  have room := sound.blocks.room
  have inside (b : Block) (member : b ∈ free) := sound.blocks.inside b (List.mem_append_left _ member)
  have bound := length_le sound.order inside room
  omega

end

end Xv6Ext2.Umalloc
