import Xv6Ext2.Umalloc.Heap

/-! `free` puts a block in its place on the list and joins it with the blocks that it touches. -/
namespace Xv6Ext2.Umalloc
open Lib Bio

variable {base bp s x : UInt32} {h : Process} {free live lower upper : List Block} {a b : Block} {l l' : List UInt32}

theorem place_round (sound : Sound base h free live) (nodes : base :: free.map Block.addr = l ++ s :: l') (fuel : Nat) :
    place bp (fuel + 1) s h =
      if bp > s ∧ bp < l'.headD base ∨ s ≥ l'.headD base ∧ (bp > s ∨ bp < l'.headD base) then .ok (s,h)
      else place bp fuel (l'.headD base) h := by
  have member : s ∈ base :: free.map Block.addr := by
    rw [nodes]
    simp
  have next := (nodes ▸ sound.follows).next_eq
  rw [place,bind_ok (ptr_run (sound.mapped member)),next]
  by_cases between : bp > s ∧ bp < l'.headD base
  · rw [if_pos between,if_pos (.inl between)]
    rfl
  · rw [if_neg between]
    by_cases turn : s ≥ l'.headD base ∧ (bp > s ∨ bp < l'.headD base)
    · rw [if_pos turn,if_pos (.inr turn)]
      rfl
    · rw [if_neg turn,if_neg (not_or.mpr ⟨between,turn⟩)]

theorem Sound.next_above (sound : Sound base h free live) (nodes : base :: free.map Block.addr = l ++ s :: x :: l') : s < x := by
  have sorted := sound.sorted
  rw [nodes] at sorted
  exact (List.pairwise_cons.mp (List.pairwise_append.mp sorted).2.1).1 x List.mem_cons_self

theorem Sound.base_le (sound : Sound base h free live) (nodes : base :: free.map Block.addr = l ++ s :: l') : base ≤ s := by
  have member : s ∈ base :: free.map Block.addr := by
    rw [nodes]
    simp
  rcases List.mem_cons.mp member with is | inside
  · exact is ▸ UInt32.le_refl _
  · exact UInt32.le_of_lt ((List.pairwise_cons.mp sound.sorted).1 s inside)

theorem place_lower (sound : Sound base h (lower ++ upper) live) (above : ∀ b ∈ upper, bp < b.addr)
    (below : ∀ p ∈ base :: lower.map Block.addr, p < bp) (here : base :: lower.map Block.addr = l ++ s :: l') {fuel : Nat}
    (enough : l'.length < fuel) : place bp fuel s h = .ok (l'.getLastD s,h) := by
  have nodes : base :: (lower ++ upper).map Block.addr = l ++ s :: (l' ++ upper.map Block.addr) := by
    rw [List.map_append,← List.cons_append,here,List.append_assoc,List.cons_append]
  have first : base < bp := below base List.mem_cons_self
  obtain ⟨fuel,rfl⟩ : ∃ n, fuel = n + 1 := ⟨fuel - 1,by omega⟩
  rw [place_round sound nodes]
  induction l' generalizing l s fuel with
  | nil =>
    have before : s < bp := below s (by rw [here]; simp)
    rw [List.nil_append] at nodes ⊢
    cases upper with
    | nil => exact if_pos (.inr ⟨sound.base_le nodes,.inl before⟩)
    | cons u upper => exact if_pos (.inl ⟨before,above u List.mem_cons_self⟩)
  | cons x l' ih =>
    have early : x < bp := below x (by rw [here]; simp)
    have order := sound.next_above nodes
    rw [List.cons_append,List.headD_cons,if_neg]
    · obtain ⟨fuel,rfl⟩ : ∃ n, fuel = n + 1 := ⟨fuel - 1,by rw [List.length_cons] at enough; omega⟩
      have rest : base :: lower.map Block.addr = (l ++ [s]) ++ x :: l' := by rw [here,List.append_assoc,List.singleton_append]
      have nodes' : base :: (lower ++ upper).map Block.addr = (l ++ [s]) ++ x :: (l' ++ upper.map Block.addr) := by
        rw [nodes,List.append_assoc,List.singleton_append,List.cons_append]
      rw [place_round sound nodes',List.getLastD_cons]
      exact ih rest nodes' fuel (by rw [List.length_cons] at enough; omega)
    · rintro (⟨_,behind⟩ | ⟨turn,_⟩)
      · exact UInt32.lt_asymm behind early
      · exact UInt32.not_le.mpr order turn

theorem place_upper (sound : Sound base h (lower ++ upper) live) (above : ∀ b ∈ upper, bp < b.addr) (first : base < bp)
    (here : upper.map Block.addr = l ++ s :: l') (fuel : Nat) : place bp (fuel + (l'.length + 1)) s h = place bp fuel base h := by
  have nodes : base :: (lower ++ upper).map Block.addr = (base :: lower.map Block.addr ++ l) ++ s :: l' := by
    rw [List.map_append,here,List.cons_append,List.cons_append,List.append_assoc]
  have after : bp < s := by
    have member : s ∈ upper.map Block.addr := by
      rw [here]
      simp
    obtain ⟨b,inside,is⟩ := List.mem_map.mp member
    exact is ▸ above b inside
  induction l' generalizing l s with
  | nil =>
    rw [List.length_nil,Nat.zero_add,place_round sound nodes,List.headD_nil,if_neg]
    rintro (⟨before,_⟩ | ⟨_,before | below⟩)
    · exact UInt32.lt_asymm before after
    · exact UInt32.lt_asymm before after
    · exact UInt32.lt_asymm below first
  | cons x l' ih =>
    have order := sound.next_above nodes
    have here' : upper.map Block.addr = (l ++ [s]) ++ x :: l' := by rw [here,List.append_assoc,List.singleton_append]
    have nodes' : base :: (lower ++ upper).map Block.addr = (base :: lower.map Block.addr ++ (l ++ [s])) ++ x :: l' := by
      rw [nodes,List.append_assoc,List.append_assoc,List.append_assoc,List.singleton_append]
    rw [List.length_cons,← Nat.add_assoc,place_round sound nodes,List.headD_cons,if_neg]
    · exact ih here' nodes' (UInt32.lt_trans after order)
    · rintro (⟨before,_⟩ | ⟨turn,_⟩)
      · exact UInt32.lt_asymm before after
      · exact UInt32.not_le.mpr order turn

theorem place_run (sound : Sound base h (lower ++ upper) live) (above : ∀ b ∈ upper, bp < b.addr)
    (below : ∀ p ∈ base :: lower.map Block.addr, p < bp) : place bp (h.sz.toNat + 4) h.freep h = .ok ((lower.map Block.addr).getLastD base,h) := by
  have few := sound.few
  rw [List.length_append] at few
  have rover := sound.rover
  rw [List.map_append,← List.cons_append] at rover
  rcases List.mem_append.mp rover with low | high
  · generalize h.freep = s' at low ⊢
    obtain ⟨l,l',here⟩ := List.append_of_mem low
    have length : l'.length < h.sz.toNat + 4 := by
      have count := congrArg List.length here
      rw [List.length_cons,List.length_map,List.length_append,List.length_cons] at count
      omega
    have last : (lower.map Block.addr).getLastD base = (l ++ s' :: l').getLastD base := by
      rw [← here,List.getLastD_cons]
    rw [place_lower sound above below here length,last,getLastD_append]
  · obtain ⟨l,l',here⟩ := List.append_of_mem high
    have count := congrArg List.length here
    rw [List.length_map,List.length_append,List.length_cons] at count
    have fuel : h.sz.toNat + 4 = h.sz.toNat + 4 - (l'.length + 1) + (l'.length + 1) := by omega
    rw [fuel,place_upper sound above (below base List.mem_cons_self) here]
    refine place_lower (l := []) sound above below rfl ?_
    rw [List.length_map]
    omega

/-- The block `b` knows what comes behind it, and the node before its place does not point to it yet. -/
structure Loose (base : UInt32) (h : Process) (lower upper : List Block) (b : Block) (live : List Block) : Prop where
  blocks : Blocks base h (b :: (lower ++ upper ++ live))
  order : (lower ++ upper).Pairwise fun a b => a.last < b.first
  behind : ∀ a ∈ lower, a.last ≤ b.first
  before : ∀ a ∈ upper, b.last < a.first
  chain : ∀ l p, base :: lower.map Block.addr = l ++ [p] → Follows (nextOf h.mem) p l
  rest : Follows (nextOf h.mem) base (upper.map Block.addr)
  next : nextOf h.mem b.addr = (upper.map Block.addr).headD base
  idle : unitsOf h.mem base = 0
  units : ∀ a ∈ b :: (lower ++ upper ++ live), unitsOf h.mem a.addr = a.units

theorem Sound.loose (sound : Sound base h (lower ++ upper) (b :: live)) (behind : ∀ a ∈ lower, a.last ≤ b.first) {m : Nat → UInt8}
    (touch : Touches h.mem m b.addr) {c : Block} {gone upper' : List Block} (split : upper = gone ++ upper') (addr : c.addr = b.addr)
    (blocks : Blocks base h (c :: (lower ++ upper' ++ live))) (before : ∀ a ∈ upper', c.last < a.first)
    (next : nextOf m b.addr = (upper'.map Block.addr).headD base) (units : unitsOf m b.addr = c.units) :
    Loose base {h with mem := m} lower upper' c live := by
  have away (a : Block) (inside : a ∈ lower ++ upper' ++ live) : Away b.addr a.addr := by
    rw [← addr]
    exact blocks.away List.mem_cons_self (List.mem_cons_of_mem _ inside) (blocks.addr_ne inside)
  have awayBase : Away b.addr base := (sound.blocks.away_base (by simp)).symm
  have order := sound.order
  have follows := sound.follows
  rw [split,← List.append_assoc] at order follows
  rw [List.map_append,← List.cons_append] at follows
  obtain ⟨chain,rest⟩ := follows_append.mp follows
  refine ⟨blocks.congr rfl rfl,?_,?_,before,?_,?_,?_,?_,?_⟩
  · rw [List.append_assoc] at order
    exact order.sublist (List.Sublist.append_left (List.sublist_append_right _ _) _)
  · intro a inside
    have first : c.first = b.first := congrArg UInt32.toNat addr
    rw [first]
    exact behind a inside
  · intro l p here
    rw [List.map_append,← List.cons_append] at chain
    obtain ⟨front,_⟩ := follows_append.mp chain
    rw [here] at front
    refine (follows_append.mp front).1.congr ?_
    intro q member
    have inside : q ∈ base :: lower.map Block.addr := by
      rw [here]
      exact List.mem_append_left _ member
    rcases List.mem_cons.mp inside with rfl | there
    · exact (touch _ awayBase).1
    · obtain ⟨a,there,is⟩ := List.mem_map.mp there
      exact (touch q (is ▸ away a (by simp [there]))).1
  · refine rest.congr ?_
    intro p member
    obtain ⟨a,inside,is⟩ := List.mem_map.mp member
    exact (touch p (is ▸ away a (by simp [inside]))).1
  · rw [addr]
    exact next
  · exact (touch base awayBase).2.trans sound.idle
  · intro a member
    rcases List.mem_cons.mp member with rfl | inside
    · rw [addr]
      exact units
    · refine (touch a.addr (away a inside)).2.trans (sound.units a ?_)
      rw [split]
      simp only [List.mem_append,List.mem_cons] at inside ⊢
      tauto

theorem joinUpper_run (sound : Sound base h (lower ++ upper) (b :: live)) (behind : ∀ a ∈ lower, a.last ≤ b.first)
    (before : ∀ a ∈ upper, b.last ≤ a.first) {p : UInt32} (here : base :: lower.map Block.addr = l ++ [p]) :
    ∃ m c upper', joinUpper b.addr p h = .ok ((),{h with mem := m}) ∧ Loose base {h with mem := m} lower upper' c live ∧
      c.addr = b.addr ∧ b.units.toNat ≤ c.units.toNat ∧ upper'.length ≤ upper.length := by
  have blocks : Blocks base h (b :: (lower ++ upper ++ live)) := sound.blocks.perm List.perm_middle
  have nodes : base :: (lower ++ upper).map Block.addr = l ++ p :: upper.map Block.addr := by
    rw [List.map_append,← List.cons_append,here,List.append_assoc,List.singleton_append]
  have member : p ∈ base :: (lower ++ upper).map Block.addr := by
    rw [nodes]
    simp
  have next := (nodes ▸ sound.follows).next_eq
  have mapped := blocks.mapped List.mem_cons_self
  have units : unitsOf h.mem b.addr = b.units := sound.units b (by simp)
  have low := blocks.low
  have atB := blocks.inside b List.mem_cons_self
  have whole := b.last_eq
  have place : b.first = b.addr.toNat := rfl
  have eight : headerSize.toNat = 8 := rfl
  have sum : (b.addr + headerSize * b.units).toNat = b.last := by
    rw [UInt32.toNat_add,UInt32.toNat_mul,eight]
    omega
  rw [joinUpper,bind_ok (ptr_run (sound.mapped member)),next,bind_ok (size_run mapped),units]
  by_cases touching : b.addr + headerSize * b.units = (upper.map Block.addr).headD base
  · rw [if_pos touching]
    cases upper with
    | nil =>
      have value := congrArg UInt32.toNat touching
      rw [sum,List.map_nil,List.headD_nil] at value
      omega
    | cons u upper =>
      rw [List.map_cons,List.headD_cons] at touching ⊢
      have touch : b.last = u.first := by
        rw [← sum,touching]
        rfl
      have both : Blocks base h (b :: u :: (lower ++ upper ++ live)) :=
        blocks.perm ((List.perm_middle.append_right live).cons b)
      have away := both.away (by simp) (by simp) (both.addr_ne (List.mem_cons_self : u ∈ u :: (lower ++ upper ++ live)))
      have mappedU : Mapped h u.addr := both.mapped (by simp)
      have unitsU : unitsOf h.mem u.addr = u.units := sound.units u (by simp)
      have nodes' : base :: (lower ++ u :: upper).map Block.addr = (l ++ [p]) ++ u.addr :: upper.map Block.addr := by
        rw [nodes,List.append_assoc,List.singleton_append]
        rfl
      have nextU := (nodes' ▸ sound.follows).next_eq
      generalize written : withUnits h.mem b.addr (b.units + u.units) = m
      have touches : Touches h.mem m b.addr := written ▸ .units _ _ _
      have first : setSize b.addr (b.units + u.units) h = .ok ((),{h with mem := m}) := written ▸ setSize_run mapped
      have second : ptr u.addr {h with mem := m} = .ok ((upper.map Block.addr).headD base,{h with mem := m}) := by
        rw [← nextU,← (touches u.addr away).1]
        exact ptr_run mappedU
      refine ⟨withNext m b.addr ((upper.map Block.addr).headD base),b.join u,upper,?_,?_,rfl,?_,Nat.le_succ _⟩
      · rw [bind_ok (size_run mapped),units,bind_ok (size_run mappedU),unitsU,bind_ok first,bind_ok second]
        exact setPtr_run mapped
      · refine sound.loose behind (touches.trans (.next _ _ _)) (List.singleton_append (x := u)).symm rfl (both.join touch) ?_ nextOf_withNext ?_
        · intro a inside
          rw [both.join_last touch]
          exact (List.pairwise_cons.mp (List.pairwise_append.mp sound.order).2.1).1 a inside
        · rw [unitsOf_withNext,← written]
          exact unitsOf_withUnits
      · rw [both.toNat_sum touch]
        omega
  · rw [if_neg touching]
    refine ⟨_,b,upper,setPtr_run mapped,?_,rfl,le_rfl,le_rfl⟩
    refine sound.loose behind (.next _ _ _) (List.nil_append _).symm rfl blocks ?_ nextOf_withNext (unitsOf_withNext.trans units)
    intro a inside
    refine lt_of_le_of_ne (before a inside) ?_
    intro touch
    cases upper with
    | nil => exact absurd inside List.not_mem_nil
    | cons u upper =>
      rcases List.mem_cons.mp inside with rfl | later
      · exact touching (UInt32.toNat_inj.mp (sum.trans touch))
      · have order := (List.pairwise_cons.mp (List.pairwise_append.mp sound.order).2.1).1 a later
        have first := before u List.mem_cons_self
        have wholeU := u.last_eq
        omega

theorem Loose.away (loose : Loose base h lower upper b live) {p : UInt32} (here : base :: lower.map Block.addr = l ++ [p]) :
    (∀ q ∈ l, Away p q) ∧ ∀ a ∈ b :: (upper ++ live), Away p a.addr := by
  have blocks := loose.blocks
  rcases List.eq_nil_or_concat' lower with rfl | ⟨lower,last,rfl⟩
  · have cut : [] ++ [base] = l ++ [p] := here
    obtain ⟨rfl,is⟩ := List.append_inj' cut rfl
    obtain rfl := List.singleton_inj.mp is
    refine ⟨fun q never => absurd never List.not_mem_nil,?_⟩
    intro a member
    exact blocks.away_base member
  · have cut : (base :: lower.map Block.addr) ++ [last.addr] = l ++ [p] := by
      rw [← here,List.map_append]
      rfl
    obtain ⟨rfl,is⟩ := List.append_inj' cut rfl
    obtain rfl := List.singleton_inj.mp is
    have around : (b :: (lower ++ [last] ++ upper ++ live)).Perm (last :: b :: (lower ++ upper ++ live)) := by
      rw [List.append_assoc lower,List.singleton_append]
      exact ((List.perm_middle.append_right live).cons b).trans (List.Perm.swap _ _ _)
    have first := blocks.perm around
    have away (a : Block) (member : a ∈ b :: (lower ++ upper ++ live)) : Away last.addr a.addr :=
      first.away List.mem_cons_self (List.mem_cons_of_mem _ member) (first.addr_ne member)
    refine ⟨?_,?_⟩
    · intro q member
      rcases List.mem_cons.mp member with rfl | inside
      · exact (blocks.away_base (by simp)).symm
      · obtain ⟨a,there,is⟩ := List.mem_map.mp inside
        exact is ▸ away a (by simp [there])
    · intro a member
      refine away a ?_
      simp only [List.mem_cons,List.mem_append] at member ⊢
      tauto

theorem Loose.linked (loose : Loose base h lower upper b live) {p : UInt32} (here : base :: lower.map Block.addr = l ++ [p])
    (strict : ∀ a ∈ lower, a.last < b.first) :
    Sound base {h with mem := withNext h.mem p b.addr, freep := p} (lower ++ b :: upper) live := by
  obtain ⟨awayL,awayB⟩ := loose.away here
  have touch : Touches h.mem (withNext h.mem p b.addr) p := .next _ _ _
  have around : (b :: (lower ++ upper ++ live)).Perm (lower ++ b :: upper ++ live) := List.perm_middle.symm.append_right live
  have nodes : base :: (lower ++ b :: upper).map Block.addr = l ++ p :: b.addr :: upper.map Block.addr := by
    rw [List.map_append,← List.cons_append,here,List.append_assoc,List.singleton_append,List.map_cons]
  obtain ⟨orderL,orderU,across⟩ := List.pairwise_append.mp loose.order
  -- the units are not written, at `p` neither
  have units (q : UInt32) (member : q = p ∨ Away p q) : unitsOf (withNext h.mem p b.addr) q = unitsOf h.mem q := by
    rcases member with rfl | away
    · exact unitsOf_withNext
    · exact (touch q away).2
  have apart (q : UInt32) (member : q ∈ base :: lower.map Block.addr) : q = p ∨ Away p q := by
    rw [here] at member
    rcases List.mem_append.mp member with inside | last
    · exact .inr (awayL q inside)
    · exact .inl (List.mem_singleton.mp last)
  refine ⟨(loose.blocks.perm around).congr rfl rfl,?_,?_,?_,?_,?_⟩
  · refine List.pairwise_append.mpr ⟨orderL,List.pairwise_cons.mpr ⟨loose.before,orderU⟩,?_⟩
    intro a member c inside
    rcases List.mem_cons.mp inside with rfl | later
    · exact strict a member
    · exact across a member c later
  · rw [nodes]
    refine follows_append.mpr ⟨?_,nextOf_withNext,?_,?_⟩
    · exact (loose.chain l p here).congr fun q member => (touch q (awayL q member)).1
    · exact (touch _ (awayB b List.mem_cons_self)).1.trans loose.next
    · refine loose.rest.congr ?_
      intro q member
      obtain ⟨a,inside,is⟩ := List.mem_map.mp member
      exact (touch q (is ▸ awayB a (by simp [inside]))).1
  · exact (units base (apart base List.mem_cons_self)).trans loose.idle
  · intro a member
    have old := loose.units a (around.mem_iff.mpr member)
    refine (units a.addr ?_).trans old
    simp only [List.mem_append,List.mem_cons] at member
    by_cases low : a ∈ lower
    · exact apart a.addr (List.mem_cons_of_mem _ (List.mem_map_of_mem low))
    · refine .inr (awayB a ?_)
      simp only [List.mem_cons,List.mem_append]
      tauto
  · rw [nodes]
    simp

theorem Loose.joined {c : Block} (loose : Loose base h (lower ++ [c]) upper b live) (touch : c.last = b.first) :
    Sound base {h with mem := withNext (withUnits h.mem c.addr (c.units + b.units)) c.addr ((upper.map Block.addr).headD base), freep := c.addr}
      (lower ++ c.join b :: upper) live := by
  have here : base :: (lower ++ [c]).map Block.addr = (base :: lower.map Block.addr) ++ [c.addr] := by
    rw [List.map_append]
    rfl
  obtain ⟨awayL,awayB⟩ := loose.away here
  have around : (b :: (lower ++ [c] ++ upper ++ live)).Perm (c :: b :: (lower ++ upper ++ live)) := by
    rw [List.append_assoc lower,List.singleton_append]
    exact ((List.perm_middle.append_right live).cons b).trans (List.Perm.swap _ _ _)
  have both := loose.blocks.perm around
  have around' : (c.join b :: (lower ++ upper ++ live)).Perm (lower ++ c.join b :: upper ++ live) := List.perm_middle.symm.append_right live
  have touches : Touches h.mem (withNext (withUnits h.mem c.addr (c.units + b.units)) c.addr ((upper.map Block.addr).headD base)) c.addr :=
    (Touches.units _ _ _).trans (.next _ _ _)
  have order := loose.order
  rw [List.append_assoc] at order
  obtain ⟨orderL,orderC,across⟩ := List.pairwise_append.mp order
  obtain ⟨_,orderU⟩ := List.pairwise_cons.mp orderC
  refine ⟨((both.join touch).perm around').congr rfl rfl,?_,?_,?_,?_,?_⟩
  · refine List.pairwise_append.mpr ⟨orderL,List.pairwise_cons.mpr ⟨?_,orderU⟩,?_⟩
    · intro a member
      rw [both.join_last touch]
      exact loose.before a member
    · intro a member d inside
      rcases List.mem_cons.mp inside with rfl | later
      · exact across a member c (by simp)
      · exact across a member d (by simp [later])
  · rw [List.map_append,← List.cons_append]
    refine follows_append.mpr ⟨?_,nextOf_withNext,?_⟩
    · exact (loose.chain _ _ here).congr fun q member => (touches q (awayL q member)).1
    · refine loose.rest.congr ?_
      intro q member
      obtain ⟨a,inside,is⟩ := List.mem_map.mp member
      exact (touches q (is ▸ awayB a (by simp [inside]))).1
  · exact (touches base (awayL base List.mem_cons_self)).2.trans loose.idle
  · intro a member
    rcases List.mem_cons.mp (around'.mem_iff.mpr member) with rfl | other
    · exact unitsOf_withNext.trans unitsOf_withUnits
    · have old := loose.units a (around.mem_iff.mpr (by simp only [List.mem_cons]; tauto))
      refine (touches a.addr ?_).2.trans old
      exact both.away List.mem_cons_self (by simp only [List.mem_cons]; tauto) (both.addr_ne (List.mem_cons_of_mem _ other))
  · rw [List.map_append]
    simp [Block.join]

theorem joinLower_run (loose : Loose base h lower upper b live) {p : UInt32} (here : base :: lower.map Block.addr = l ++ [p]) :
    ∃ m free', joinLower b.addr p h = .ok ((),{h with mem := m}) ∧ Sound base {h with mem := m, freep := p} free' live ∧
      (∃ c ∈ free', b.units.toNat ≤ c.units.toNat) ∧ free'.length ≤ lower.length + upper.length + 1 := by
  have blocks := loose.blocks
  have low := blocks.low
  have atB := blocks.inside b List.mem_cons_self
  have place : b.first = b.addr.toNat := rfl
  have eight : headerSize.toNat = 8 := rfl
  have links (strict : ∀ a ∈ lower, a.last < b.first) := loose.linked here strict
  rcases List.eq_nil_or_concat' lower with rfl | ⟨lower,c,rfl⟩
  · have cut : [] ++ [base] = l ++ [p] := here
    obtain ⟨rfl,is⟩ := List.append_inj' cut rfl
    obtain rfl := List.singleton_inj.mp is
    have mapped : Mapped h base := blocks.mapped_base
    have apart : ¬base + headerSize * 0 = b.addr := by
      intro same
      have value := congrArg UInt32.toNat same
      rw [UInt32.mul_zero,UInt32.add_zero] at value
      omega
    refine ⟨withNext h.mem base b.addr,_,?_,links fun a never => absurd never List.not_mem_nil,⟨b,by simp,le_rfl⟩,by simp⟩
    rw [joinLower,bind_ok (size_run mapped),loose.idle,if_neg apart]
    exact setPtr_run mapped
  · have cut : (base :: lower.map Block.addr) ++ [c.addr] = l ++ [p] := by
      rw [← here,List.map_append]
      rfl
    obtain ⟨rfl,is⟩ := List.append_inj' cut rfl
    obtain rfl := List.singleton_inj.mp is
    have mapped : Mapped h c.addr := blocks.mapped (by simp)
    have units : unitsOf h.mem c.addr = c.units := loose.units c (by simp)
    have atC := blocks.inside c (by simp)
    have whole := c.last_eq
    have placeC : c.first = c.addr.toNat := rfl
    have sum : (c.addr + headerSize * c.units).toNat = c.last := by
      rw [UInt32.toNat_add,UInt32.toNat_mul,eight]
      omega
    rw [joinLower,bind_ok (size_run mapped),units]
    by_cases touching : c.addr + headerSize * c.units = b.addr
    · have touch : c.last = b.first := by
        rw [← sum,touching]
        rfl
      have around : (b :: (lower ++ [c] ++ upper ++ live)).Perm (c :: b :: (lower ++ upper ++ live)) := by
        rw [List.append_assoc lower,List.singleton_append]
        exact ((List.perm_middle.append_right live).cons b).trans (List.Perm.swap _ _ _)
      have both := blocks.perm around
      have mappedB : Mapped h b.addr := blocks.mapped List.mem_cons_self
      have unitsB : unitsOf h.mem b.addr = b.units := loose.units b List.mem_cons_self
      have joined := loose.joined touch
      generalize written : withUnits h.mem c.addr (c.units + b.units) = m at joined
      have touches : Touches h.mem m c.addr := written ▸ .units _ _ _
      have first : setSize c.addr (c.units + b.units) h = .ok ((),{h with mem := m}) := written ▸ setSize_run mapped
      have second : ptr b.addr {h with mem := m} = .ok ((upper.map Block.addr).headD base,{h with mem := m}) := by
        rw [← loose.next,← (touches b.addr ((loose.away here).2 b List.mem_cons_self)).1]
        exact ptr_run mappedB
      refine ⟨withNext m c.addr ((upper.map Block.addr).headD base),lower ++ c.join b :: upper,?_,joined,⟨c.join b,by simp,?_⟩,?_⟩
      · rw [if_pos touching,bind_ok (size_run mapped),units,bind_ok (size_run mappedB),unitsB,bind_ok first,bind_ok second]
        exact setPtr_run mapped
      · rw [both.toNat_sum touch]
        omega
      · simp only [List.length_append,List.length_cons,List.length_nil]
        omega
    · rw [if_neg touching]
      refine ⟨withNext h.mem c.addr b.addr,_,setPtr_run mapped,links ?_,⟨b,by simp,le_rfl⟩,?_⟩
      swap
      · simp only [List.length_append,List.length_cons]
        omega
      intro a member
      have behind := loose.behind c (by simp)
      have strict : c.last < b.first := lt_of_le_of_ne behind fun touch => touching (UInt32.toNat_inj.mp (sum.trans touch))
      rcases List.mem_append.mp member with early | last
      · have order := (List.pairwise_append.mp (List.pairwise_append.mp loose.order).1).2.2 a early c (by simp)
        omega
      · rw [List.mem_singleton.mp last]
        exact strict

theorem split_at (order : free.Pairwise fun a b => a.last < b.first) (apart : ∀ a ∈ free, a.Apart b) :
    ∃ lower upper, free = lower ++ upper ∧ (∀ a ∈ lower, a.last ≤ b.first) ∧ ∀ a ∈ upper, b.last ≤ a.first := by
  induction free with
  | nil => exact ⟨[],[],rfl,fun a never => absurd never List.not_mem_nil,fun a never => absurd never List.not_mem_nil⟩
  | cons c free ih =>
    obtain ⟨ahead,order⟩ := List.pairwise_cons.mp order
    rcases apart c List.mem_cons_self with early | late
    · obtain ⟨lower,upper,rfl,behind,before⟩ := ih order fun a member => apart a (List.mem_cons_of_mem _ member)
      refine ⟨c :: lower,upper,rfl,?_,before⟩
      intro a member
      rcases List.mem_cons.mp member with rfl | inside
      · exact early
      · exact behind a inside
    · refine ⟨[],c :: free,rfl,fun a never => absurd never List.not_mem_nil,?_⟩
      intro a member
      rcases List.mem_cons.mp member with rfl | inside
      · exact late
      · have whole := c.last_eq
        have after := ahead a inside
        omega

theorem free_run (sound : Sound base h free (b :: live)) :
    ∃ m p free', Umalloc.free (b.addr + headerSize) h = .ok ((),{h with mem := m, freep := p}) ∧
      Sound base {h with mem := m, freep := p} free' live ∧ (∃ c ∈ free', b.units.toNat ≤ c.units.toNat) ∧
      free'.length ≤ free.length + 1 := by
  have blocks : Blocks base h (b :: (free ++ live)) := sound.blocks.perm List.perm_middle
  have apart (a : Block) (member : a ∈ free) : a.Apart b :=
    ((List.pairwise_cons.mp blocks.apart).1 a (List.mem_append_left _ member)).symm
  obtain ⟨lower,upper,rfl,behind,before⟩ := split_at sound.order apart
  have atB := blocks.inside b List.mem_cons_self
  have place : b.first = b.addr.toNat := rfl
  have whole := b.last_eq
  have above (a : Block) (member : a ∈ upper) : b.addr < a.addr := by
    have after := before a member
    have placeA : a.first = a.addr.toNat := rfl
    rw [UInt32.lt_iff_toNat_lt]
    omega
  have below (p : UInt32) (member : p ∈ base :: lower.map Block.addr) : p < b.addr := by
    rw [UInt32.lt_iff_toNat_lt]
    rcases List.mem_cons.mp member with rfl | inside
    · omega
    · obtain ⟨a,there,rfl⟩ := List.mem_map.mp inside
      have after := behind a there
      have atA := blocks.inside a (by simp [there])
      have wholeA := a.last_eq
      have placeA : a.first = a.addr.toNat := rfl
      omega
  obtain none | ⟨l,p,here⟩ := List.eq_nil_or_concat' (base :: lower.map Block.addr)
  · contradiction
  have node : (lower.map Block.addr).getLastD base = p := by
    have last : (l ++ [p]).getLastD base = p := getLastD_append l [] base
    rwa [← here,List.getLastD_cons] at last
  have header : b.addr + headerSize - headerSize = b.addr := UInt32.add_sub_cancel _ _
  have placed := place_run sound above below
  rw [node] at placed
  obtain ⟨m,c,upper',upperRan,loose,addr,large,fewer⟩ := joinUpper_run sound behind before here
  obtain ⟨m',free',lowerRan,sound',⟨d,member,larger⟩,one⟩ := joinLower_run loose here
  refine ⟨m',p,free',?_,sound',⟨d,member,large.trans larger⟩,by rw [List.length_append]; omega⟩
  rw [addr] at lowerRan
  rw [Umalloc.free,header]
  rw [bind_ok (show rounds h = .ok (h.sz.toNat + 4,h) from rfl),bind_ok (show Umalloc.freep h = .ok (h.freep,h) from rfl),bind_ok placed,
    bind_ok upperRan,bind_ok lowerRan]
  rfl

end Xv6Ext2.Umalloc
