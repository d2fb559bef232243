import Xv6Ext2.Umalloc.Free

/-! `malloc` finds a block that is large enough, or makes one with `morecore`, and takes its last units. -/
namespace Xv6Ext2.Umalloc
open Lib Bio
open Vm (kernBase pages)

variable {base nu nunits p : UInt32} {h : Process} {free live : List Block} {b c : Block}

theorem Sound.grants (sound : Sound base h free live) (g : List Bool) : Sound base {h with grants := g} free live :=
  ⟨sound.blocks.congr rfl rfl,sound.order,sound.follows,sound.idle,sound.units,sound.rover⟩

theorem Sound.node_ne_zero (sound : Sound base h free live) (linked : base ≠ 0) (member : p ∈ base :: free.map Block.addr) : p ≠ 0 := by
  rcases List.mem_cons.mp member with rfl | inside
  · exact linked
  · obtain ⟨b,there,rfl⟩ := List.mem_map.mp inside
    have atB := sound.blocks.inside b (List.mem_append_left _ there)
    have place : b.first = b.addr.toNat := rfl
    intro zero
    rw [place,zero] at atB
    exact absurd atB.1 (by simp)

theorem Sound.rover_ne_zero (sound : Sound base h free live) (linked : base ≠ 0) : h.freep ≠ 0 := sound.node_ne_zero linked sound.rover

theorem sbrk_grow {n : UInt32} (low : h.sz.toNat < 2147483648) (some : 0 < n.toNat) (int : n.toNat < 2147483648) :
    ∃ g, sbrk n h = .ok (0xFFFFFFFF,{h with grants := g}) ∨
      sbrk n h = .ok (h.sz,{h with sz := h.sz + n, grants := g, got := (h.sz,n) :: h.got}) ∧
        (h.sz + n).toNat = h.sz.toNat + n.toNat ∧ h.sz.toNat + n.toNat < 2147483648 := by
  have sum : (h.sz + n).toNat = h.sz.toNat + n.toNat := by
    rw [UInt32.toNat_add]
    omega
  have grow : n ≠ 0 ∧ n < 0x80000000 := by
    constructor
    · rintro rfl
      exact absurd some (by decide)
    · exact UInt32.lt_iff_toNat_lt.mpr int
  rw [sbrk,if_pos grow]
  by_cases high : h.sz + n ≥ kernBase
  · exact ⟨h.grants,.inl (if_pos high)⟩
  · have below : (h.sz + n).toNat < 2147483648 := UInt32.lt_iff_toNat_lt.mp (UInt32.not_le.mp high)
    have forward : ¬ h.sz + n < h.sz := by
      rw [UInt32.lt_iff_toNat_lt]
      omega
    rw [if_neg high,if_neg forward]
    split
    · exact ⟨_,.inr ⟨rfl,sum,by omega⟩⟩
    · exact ⟨_,.inl rfl⟩

theorem Sound.obtained (sound : Sound base h free live) {n : UInt32} (some : 0 < nu.toNat) (length : n.toNat = 8 * nu.toNat) (g : List Bool)
    (sum : (h.sz + n).toNat = h.sz.toNat + n.toNat) (low : h.sz.toNat + n.toNat < 2147483648) :
    Sound base {h with sz := h.sz + n, grants := g, got := (h.sz,n) :: h.got, mem := withUnits h.mem h.sz nu} free (⟨h.sz,nu⟩ :: live) := by
  have touch : Touches h.mem (withUnits h.mem h.sz nu) h.sz := .units _ _ _
  have room := sound.blocks.room
  have awayBase : Away h.sz base := .inr room
  have away (a : Block) (member : a ∈ free ++ live) : Away h.sz a.addr := by
    have atA := sound.blocks.inside a member
    have whole := a.last_eq
    have place : a.first = a.addr.toNat := rfl
    exact .inr (by omega)
  have around : (⟨h.sz,nu⟩ :: (free ++ live)).Perm (free ++ ⟨h.sz,nu⟩ :: live) := List.perm_middle.symm
  have extended : Blocks base {h with sz := h.sz + n, grants := g, got := (h.sz,n) :: h.got, mem := withUnits h.mem h.sz nu}
      (⟨h.sz,nu⟩ :: (free ++ live)) :=
    sound.blocks.extend (by dsimp only; omega) (by dsimp only; omega) some length rfl
  refine ⟨extended.perm around,sound.order,?_,?_,?_,sound.rover⟩
  · refine sound.follows.congr ?_
    intro q member
    rcases List.mem_cons.mp member with rfl | inside
    · exact (touch _ awayBase).1
    · obtain ⟨a,there,rfl⟩ := List.mem_map.mp inside
      exact (touch _ (away a (List.mem_append_left _ there))).1
  · exact (touch _ awayBase).2.trans sound.idle
  · intro a member
    rcases List.mem_cons.mp (around.mem_iff.mpr member) with rfl | old
    · exact unitsOf_withUnits
    · exact (touch _ (away a old)).2.trans (sound.units a old)

theorem morecore_run (linked : base ≠ 0) (sound : Sound base h free live) (some : 0 < nu.toNat) (int : 8 * nu.toNat < 2147483648) :
    ∃ r h', morecore nu h = .ok (r,h') ∧ h.sz ≤ h'.sz ∧
      ((r = 0 ∧ Sound base h' free live) ∨
        (r = h'.freep ∧ r ≠ 0 ∧ ∃ free', Sound base h' free' live ∧ (∃ c ∈ free', nu.toNat ≤ c.units.toNat) ∧
          free'.length ≤ free.length + 1)) := by
  generalize larger : (if nu < 4096 then 4096 else nu) = nu'
  have least : nu.toNat ≤ nu'.toNat ∧ 0 < nu'.toNat ∧ 8 * nu'.toNat < 2147483648 := by
    subst larger
    split_ifs with small
    · have := UInt32.lt_iff_toNat_lt.mp small
      exact ⟨this.le,by decide,by decide⟩
    · exact ⟨le_rfl,some,int⟩
  obtain ⟨least,some,int⟩ := least
  have length : (nu' * headerSize).toNat = 8 * nu'.toNat := by
    rw [UInt32.toNat_mul,show headerSize.toNat = 8 from rfl]
    omega
  have low := sound.blocks.low
  rw [morecore,larger]
  obtain ⟨g,refused | ⟨granted,sum,below⟩⟩ := sbrk_grow (h := h) (n := nu' * headerSize) low (by omega) (by omega)
  · refine ⟨0,{h with grants := g},?_,UInt32.le_refl h.sz,.inl ⟨rfl,sound.grants g⟩⟩
    rw [bind_ok refused,if_pos rfl]
    rfl
  · have real : h.sz ≠ 0xFFFFFFFF := by
      intro same
      rw [same] at low
      exact absurd low (by decide)
    have mapped : Mapped {h with sz := h.sz + nu' * headerSize, grants := g, got := (h.sz,nu' * headerSize) :: h.got} h.sz := by
      refine ⟨?_,?_⟩ <;> dsimp only <;> omega
    obtain ⟨m,q,free',freed,sound',⟨c,member,units⟩,one⟩ := free_run (sound.obtained some length g sum below)
    rw [bind_ok granted,if_neg real,bind_ok (setSize_run mapped),bind_ok freed]
    refine ⟨q,_,rfl,?_,.inr ⟨rfl,?_,free',sound',⟨c,member,least.trans units⟩,one⟩⟩
    · rw [UInt32.le_iff_toNat_le]
      dsimp only
      omega
    · exact sound'.rover_ne_zero linked

/-- What the loop of `malloc` does when it is back at `freep`. -/
def extend (nunits : UInt32) (fuel : Nat) : M UInt32 := do
  let p ← morecore nunits
  if p = 0 then return 0 else search nunits fuel p (← ptr p)

structure Fits (h : Process) (base : UInt32) (free : List Block) (nunits prev : UInt32) (c : Block) : Prop where
  node : prev ∈ base :: free.map Block.addr
  block : c ∈ free
  next : nextOf h.mem prev = c.addr
  large : nunits.toNat ≤ c.units.toNat

theorem search_round (mapped : Mapped h p) (fuel : Nat) (prev : UInt32) :
    search nunits (fuel + 1) prev p h =
      if unitsOf h.mem p ≥ nunits then take nunits prev p (unitsOf h.mem p) h
      else if p = h.freep then extend nunits fuel h else search nunits fuel p (nextOf h.mem p) h := by
  rw [search,bind_ok (size_run mapped)]
  by_cases large : unitsOf h.mem p ≥ nunits
  · rw [if_pos large,if_pos large]
  · rw [if_neg large,if_neg large,bind_ok (show Umalloc.freep h = .ok (h.freep,h) from rfl)]
    by_cases round : p = h.freep
    · rw [if_pos round,if_pos round]
      rfl
    · rw [if_neg round,if_neg round,bind_ok (ptr_run mapped)]

theorem Sound.fits (sound : Sound base h free live) (some : 0 < nunits.toNat) {prev : UInt32} (node : prev ∈ base :: free.map Block.addr)
    (member : p ∈ base :: free.map Block.addr) (next : nextOf h.mem prev = p) (large : unitsOf h.mem p ≥ nunits) :
    ∃ c, Fits h base free nunits prev c ∧ c.addr = p ∧ unitsOf h.mem p = c.units := by
  have large' := UInt32.le_iff_toNat_le.mp large
  rcases List.mem_cons.mp member with rfl | inside
  · rw [sound.idle,UInt32.toNat_zero] at large'
    omega
  · obtain ⟨c,block,rfl⟩ := List.mem_map.mp inside
    have units := sound.units c (List.mem_append_left _ block)
    rw [units] at large'
    exact ⟨c,⟨node,block,next,large'⟩,rfl,units⟩

theorem search_scan (sound : Sound base h free live) (some : 0 < nunits.toNat) {prev : UInt32} {rest : List UInt32}
    (node : prev ∈ base :: free.map Block.addr) (nodes : ∀ p ∈ rest, p ∈ base :: free.map Block.addr) (fresh : h.freep ∉ rest)
    (follows : Follows (nextOf h.mem) h.freep (prev :: rest)) (fuel : Nat) :
    (∃ prev' c, Fits h base free nunits prev' c ∧
      search nunits (fuel + (rest.length + 1)) prev (rest.headD h.freep) h = take nunits prev' c.addr c.units h) ∨
    ((∀ p ∈ rest ++ [h.freep], unitsOf h.mem p < nunits) ∧
      search nunits (fuel + (rest.length + 1)) prev (rest.headD h.freep) h = extend nunits fuel h) := by
  induction rest generalizing prev with
  | nil =>
    rw [List.headD_nil,List.length_nil,Nat.zero_add,search_round (sound.mapped sound.rover)]
    by_cases large : unitsOf h.mem h.freep ≥ nunits
    · obtain ⟨c,fits,addr,units⟩ := sound.fits some node sound.rover follows.1 large
      refine .inl ⟨prev,c,fits,?_⟩
      rw [if_pos large,units,addr]
    · refine .inr ⟨?_,?_⟩
      · intro p member
        rw [List.nil_append,List.mem_singleton] at member
        rw [member]
        exact UInt32.not_le.mp large
      · rw [if_neg large,if_pos rfl]
  | cons x rest ih =>
    obtain ⟨next,follows⟩ := follows
    have inside := nodes x List.mem_cons_self
    rw [List.headD_cons,List.length_cons,← Nat.add_assoc fuel,search_round (sound.mapped inside)]
    by_cases large : unitsOf h.mem x ≥ nunits
    · obtain ⟨c,fits,addr,units⟩ := sound.fits some node inside next large
      refine .inl ⟨prev,c,fits,?_⟩
      rw [if_pos large,units,addr]
    · have other : x ≠ h.freep := fun same => fresh (by rw [same]; exact List.mem_cons_self)
      rw [if_neg large,if_neg other,follows.1]
      obtain found | ⟨small,ran⟩ := ih inside (fun p member => nodes p (List.mem_cons_of_mem _ member))
        (fun member => fresh (List.mem_cons_of_mem _ member)) follows
      · exact .inl found
      · refine .inr ⟨?_,ran⟩
        intro p member
        rcases List.mem_cons.mp member with rfl | later
        · exact UInt32.not_le.mp large
        · exact small p later

theorem search_circle (sound : Sound base h free live) (some : 0 < nunits.toNat) {fuel : Nat} (enough : free.length + 1 ≤ fuel) :
    (∃ prev c, Fits h base free nunits prev c ∧
      search nunits fuel h.freep (nextOf h.mem h.freep) h = take nunits prev c.addr c.units h) ∨
    ((∀ c ∈ free, c.units.toNat < nunits.toNat) ∧
      search nunits fuel h.freep (nextOf h.mem h.freep) h = extend nunits (fuel - (free.length + 1)) h) := by
  obtain ⟨l,l',nodes⟩ := List.append_of_mem sound.rover
  have follows := sound.follows
  have sorted := sound.sorted
  have count := congrArg List.length nodes
  rw [List.length_cons,List.length_map,List.length_append,List.length_cons] at count
  have head : base = l.headD h.freep := by
    have same := congrArg (List.headD · h.freep) nodes
    rw [List.headD_cons,headD_append,List.headD_cons] at same
    exact same
  rw [nodes] at sorted
  rw [nodes,head] at follows
  have circle := follows.rotate
  have inside (p : UInt32) (member : p ∈ l' ++ l) : p ∈ base :: free.map Block.addr := by
    rw [nodes]
    rcases List.mem_append.mp member with late | early
    · exact List.mem_append_right _ (List.mem_cons_of_mem _ late)
    · exact List.mem_append_left _ early
  have fresh : h.freep ∉ l' ++ l := by
    obtain ⟨_,second,across⟩ := List.pairwise_append.mp sorted
    intro member
    rcases List.mem_append.mp member with late | early
    · exact UInt32.lt_irrefl _ ((List.pairwise_cons.mp second).1 _ late)
    · exact UInt32.lt_irrefl _ (across _ early _ List.mem_cons_self)
  have length : (l' ++ l).length = free.length := by
    rw [List.length_append]
    omega
  have scan := search_scan sound some sound.rover inside fresh circle (fuel - (free.length + 1))
  have next : nextOf h.mem h.freep = (l' ++ l).headD h.freep := circle.1
  rw [← next,length,Nat.sub_add_cancel enough] at scan
  rcases scan with found | ⟨small,ran⟩
  · exact .inl found
  · refine .inr ⟨?_,ran⟩
    intro c member
    have node : c.addr ∈ base :: free.map Block.addr := List.mem_cons_of_mem _ (List.mem_map_of_mem member)
    rw [nodes] at node
    have units := sound.units c (List.mem_append_left _ member)
    rw [← units]
    apply UInt32.lt_iff_toNat_lt.mp
    apply small
    simp only [List.mem_append,List.mem_cons,List.not_mem_nil,or_false] at node ⊢
    tauto

theorem Blocks.headers_away {bs : List Block} (blocks : Blocks base h bs) {q : UInt32} (memberP : p ∈ base :: bs.map Block.addr)
    (memberQ : q ∈ base :: bs.map Block.addr) (other : p ≠ q) : Away p q := by
  rcases List.mem_cons.mp memberP with rfl | insideP
  · rcases List.mem_cons.mp memberQ with rfl | insideQ
    · exact absurd rfl other
    · obtain ⟨b,there,rfl⟩ := List.mem_map.mp insideQ
      exact blocks.away_base there
  · obtain ⟨a,thereA,rfl⟩ := List.mem_map.mp insideP
    rcases List.mem_cons.mp memberQ with rfl | insideQ
    · exact (blocks.away_base thereA).symm
    · obtain ⟨b,there,rfl⟩ := List.mem_map.mp insideQ
      exact blocks.away thereA there other

theorem Fits.place {prev : UInt32} (fits : Fits h base free nunits prev c) (sound : Sound base h free live) :
    ∃ lower upper l, free = lower ++ c :: upper ∧ base :: lower.map Block.addr = l ++ [prev] := by
  obtain ⟨lower,upper,rfl⟩ := List.append_of_mem fits.block
  obtain ⟨l,l',nodes⟩ := List.append_of_mem fits.node
  have next := (nodes ▸ sound.follows).next_eq
  rw [fits.next] at next
  have away := sound.blocks.away_base (List.mem_append_left _ fits.block)
  cases l' with
  | nil =>
    rw [List.headD_nil] at next
    rw [next,Away] at away
    omega
  | cons x l' =>
    rw [List.headD_cons] at next
    subst next
    have sorted := sound.sorted
    have both : (l ++ [prev]) ++ c.addr :: l' = (base :: lower.map Block.addr) ++ c.addr :: upper.map Block.addr := by
      rw [List.append_assoc,List.singleton_append,← nodes,List.map_append]
      rfl
    rw [nodes,← List.singleton_append,← List.append_assoc] at sorted
    obtain ⟨_,second,across⟩ := List.pairwise_append.mp sorted
    have early : c.addr ∉ l ++ [prev] := fun member => UInt32.lt_irrefl _ (across _ member _ List.mem_cons_self)
    have late : c.addr ∉ l' := fun member => UInt32.lt_irrefl _ ((List.pairwise_cons.mp second).1 _ member)
    exact ⟨lower,upper,l,rfl,((List.append_cons_inj_of_notMem early late).mp both).1.symm⟩

section

variable {lower upper : List Block} {l : List UInt32} {prev : UInt32} (here : base :: lower.map Block.addr = l ++ [prev])

include here in
theorem Sound.removed (sound : Sound base h (lower ++ c :: upper) live) :
    Sound base {h with mem := withNext h.mem prev (nextOf h.mem c.addr), freep := prev} (lower ++ upper) (c :: live) := by
  have touch : Touches h.mem (withNext h.mem prev (nextOf h.mem c.addr)) prev := .next _ _ _
  have around : (lower ++ c :: upper ++ live).Perm (lower ++ upper ++ c :: live) :=
    (List.perm_middle.append_right live).trans List.perm_middle.symm
  have nodes : base :: (lower ++ c :: upper).map Block.addr = l ++ prev :: c.addr :: upper.map Block.addr := by
    rw [List.map_append,← List.cons_append,here,List.append_assoc,List.singleton_append,List.map_cons]
  have nodes' : base :: (lower ++ upper).map Block.addr = l ++ prev :: upper.map Block.addr := by
    rw [List.map_append,← List.cons_append,here,List.append_assoc,List.singleton_append]
  have header (p : UInt32) (member : p ∈ base :: (lower ++ c :: upper).map Block.addr) :
      p ∈ base :: (lower ++ c :: upper ++ live).map Block.addr := by
    have parts : (lower ++ c :: upper ++ live).map Block.addr = (lower ++ c :: upper).map Block.addr ++ live.map Block.addr :=
      List.map_append
    rw [parts,← List.cons_append]
    exact List.mem_append_left _ member
  have atPrev := header prev (by rw [nodes]; simp)
  have units (p : UInt32) (member : p ∈ base :: (lower ++ c :: upper ++ live).map Block.addr) :
      unitsOf (withNext h.mem prev (nextOf h.mem c.addr)) p = unitsOf h.mem p := by
    by_cases same : prev = p
    · subst same
      exact unitsOf_withNext
    · exact (touch p (sound.blocks.headers_away atPrev member same)).2
  have distinct := sound.sorted
  rw [nodes] at distinct
  refine ⟨(sound.blocks.perm around).congr rfl rfl,?_,?_,?_,?_,?_⟩
  · exact sound.order.sublist (List.Sublist.append_left (List.sublist_cons_self _ _) _)
  · rw [nodes']
    have follows := sound.follows
    rw [nodes] at follows
    refine follows.remove nextOf_withNext ?_
    intro q member
    have inside : q ∈ base :: (lower ++ c :: upper).map Block.addr := by
      rw [nodes]
      simp only [List.mem_append,List.mem_cons] at member ⊢
      tauto
    refine (touch q (sound.blocks.headers_away atPrev (header q inside) ?_)).1
    rintro rfl
    obtain ⟨_,second,across⟩ := List.pairwise_append.mp distinct
    rcases List.mem_append.mp member with early | later
    · exact UInt32.lt_irrefl _ (across _ early _ List.mem_cons_self)
    · exact UInt32.lt_irrefl _ ((List.pairwise_cons.mp second).1 _ (List.mem_cons_of_mem _ later))
  · exact (units base List.mem_cons_self).trans sound.idle
  · intro a member
    have old := around.mem_iff.mpr member
    exact (units a.addr (List.mem_cons_of_mem _ (List.mem_map_of_mem old))).trans (sound.units a old)
  · rw [nodes']
    simp

theorem Sound.split {n : UInt32} (sound : Sound base h (lower ++ c :: upper) live) (some : 0 < n.toNat) (less : n.toNat < c.units.toNat)
    (node : prev ∈ base :: (lower ++ c :: upper).map Block.addr) :
    Sound base {h with mem := withUnits (withUnits h.mem c.addr (c.units - n)) (c.upper n).addr n, freep := prev}
      (lower ++ c.lower n :: upper) (c.upper n :: live) := by
  have first : (lower ++ c :: upper ++ live).Perm (c :: (lower ++ upper ++ live)) := List.perm_middle.append_right live
  have second : (c.lower n :: c.upper n :: (lower ++ upper ++ live)).Perm (lower ++ c.lower n :: upper ++ c.upper n :: live) :=
    ((List.perm_middle.symm).cons _).trans (List.perm_middle.symm.append_right _)
  have blocks := (sound.blocks.perm first).split some less
  have all := blocks.perm second
  -- the header of `c` keeps its pointer, and every other one is as it was
  have touch : Touches h.mem (withUnits h.mem c.addr (c.units - n)) c.addr := .units _ _ _
  have touch' : Touches (withUnits h.mem c.addr (c.units - n)) (withUnits (withUnits h.mem c.addr (c.units - n)) (c.upper n).addr n) (c.upper n).addr :=
    .units _ _ _
  have distinct : (c.upper n).addr ≠ c.addr :=
    (blocks.addr_ne (b := c.upper n) List.mem_cons_self).symm
  have others (p : UInt32) (member : p ∈ base :: (lower ++ upper ++ live).map Block.addr) : Away c.addr p ∧ Away (c.upper n).addr p := by
    rcases List.mem_cons.mp member with rfl | inside
    · exact ⟨(blocks.away_base (b := c.lower n) (by simp)).symm,(blocks.away_base (by simp)).symm⟩
    · obtain ⟨a,there,rfl⟩ := List.mem_map.mp inside
      have among : a ∈ c.lower n :: c.upper n :: (lower ++ upper ++ live) := List.mem_cons_of_mem _ (List.mem_cons_of_mem _ there)
      constructor
      · exact blocks.away (a := c.lower n) (by simp) among (blocks.addr_ne (List.mem_cons_of_mem _ there))
      · have swapped := blocks.perm (List.Perm.swap _ _ _)
        exact blocks.away (by simp) among (swapped.addr_ne (List.mem_cons_of_mem _ there))
  have awayC : Away (c.upper n).addr c.addr := blocks.away (b := c.lower n) (by simp) (by simp) distinct
  have kept (p : UInt32) (member : p ∈ base :: (lower ++ upper ++ live).map Block.addr) :
      nextOf (withUnits (withUnits h.mem c.addr (c.units - n)) (c.upper n).addr n) p = nextOf h.mem p ∧
        unitsOf (withUnits (withUnits h.mem c.addr (c.units - n)) (c.upper n).addr n) p = unitsOf h.mem p := by
    obtain ⟨low,high⟩ := others p member
    exact ⟨(touch' p high).1.trans (touch p low).1,(touch' p high).2.trans (touch p low).2⟩
  have addresses : (lower ++ c.lower n :: upper).map Block.addr = (lower ++ c :: upper).map Block.addr := by
    rw [List.map_append,List.map_append]
    rfl
  have whole := c.last_eq
  have shorter : (c.lower n).last ≤ c.last := by
    have units : (c.lower n).units.toNat = c.units.toNat - n.toNat := by
      rw [Block.lower,UInt32.toNat_sub]
      have := c.units.toNat_lt
      omega
    have place : (c.lower n).first = c.first := rfl
    rw [Block.last_eq,units,place]
    omega
  obtain ⟨orderL,orderC,across⟩ := List.pairwise_append.mp sound.order
  obtain ⟨before,orderU⟩ := List.pairwise_cons.mp orderC
  refine ⟨all.congr rfl rfl,?_,?_,?_,?_,?_⟩
  · refine List.pairwise_append.mpr ⟨orderL,List.pairwise_cons.mpr ⟨fun a member => shorter.trans_lt (before a member),orderU⟩,?_⟩
    intro a member d inside
    rcases List.mem_cons.mp inside with rfl | later
    · exact across a member c List.mem_cons_self
    · exact across a member d (List.mem_cons_of_mem _ later)
  · rw [addresses]
    refine sound.follows.congr ?_
    intro q member
    by_cases same : q = c.addr
    · rw [same]
      exact (touch' _ awayC).1.trans nextOf_withUnits
    · refine (kept q ?_).1
      simp only [List.map_append,List.map_cons,List.mem_cons,List.mem_append] at member ⊢
      tauto
  · exact (kept base List.mem_cons_self).2.trans sound.idle
  · intro a member
    rcases List.mem_cons.mp (second.mem_iff.mpr member) with rfl | member
    · exact (touch' _ awayC).2.trans unitsOf_withUnits
    · rcases List.mem_cons.mp member with rfl | old
      · exact unitsOf_withUnits
      · refine (kept a.addr (List.mem_cons_of_mem _ (List.mem_map_of_mem old))).2.trans (sound.units a ?_)
        exact first.mem_iff.mpr (List.mem_cons_of_mem _ old)
  · rw [addresses]
    exact node

end

theorem take_run {prev : UInt32} (sound : Sound base h free live) (some : 0 < nunits.toNat) (fits : Fits h base free nunits prev c) :
    ∃ m free' b, take nunits prev c.addr c.units h = .ok (b.addr + headerSize,{h with mem := m, freep := prev}) ∧ b.units = nunits ∧
      Sound base {h with mem := m, freep := prev} free' (b :: live) := by
  obtain ⟨lower,upper,l,rfl,here⟩ := fits.place sound
  have mappedC : Mapped h c.addr := sound.blocks.mapped (by simp)
  have mappedP : Mapped h prev := sound.mapped fits.node
  rw [take]
  by_cases exact : c.units = nunits
  · refine ⟨_,lower ++ upper,c,?_,exact,sound.removed here⟩
    rw [if_pos exact,bind_ok (ptr_run mappedC),bind_ok (setPtr_run mappedP)]
    rfl
  · have less : nunits.toNat < c.units.toNat :=
      lt_of_le_of_ne fits.large fun same => exact (UInt32.toNat_inj.mp same).symm
    have split := sound.split some less fits.node
    have mappedU : Mapped {h with mem := withUnits h.mem c.addr (c.units - nunits)} (c.upper nunits).addr :=
      split.blocks.mapped (b := c.upper nunits) (by simp)
    refine ⟨_,lower ++ c.lower nunits :: upper,c.upper nunits,?_,rfl,split⟩
    rw [if_neg exact,bind_ok (setSize_run mappedC)]
    exact bind_ok (setSize_run mappedU) _

theorem search_run (linked : base ≠ 0) (sound : Sound base h free live) (some : 0 < nunits.toNat) (int : 8 * nunits.toNat < 2147483648)
    {fuel : Nat} (enough : h.sz.toNat + 4 ≤ fuel) :
    ∃ r h' free', search nunits fuel h.freep (nextOf h.mem h.freep) h = .ok (r,h') ∧ h.sz ≤ h'.sz ∧
      ((r = 0 ∧ Sound base h' free' live) ∨
        ∃ b : Block, r = b.addr + headerSize ∧ b.units = nunits ∧ Sound base h' free' (b :: live)) := by
  have few := sound.few
  rcases search_circle sound some (by omega : free.length + 1 ≤ fuel) with ⟨prev,c,fits,ran⟩ | ⟨-,ran⟩
  · obtain ⟨m,free',b,took,units,sound'⟩ := take_run sound some fits
    rw [ran,took]
    exact ⟨_,_,free',rfl,UInt32.le_refl h.sz,.inr ⟨b,rfl,units,sound'⟩⟩
  · obtain ⟨r,h',more,grown,⟨rfl,sound'⟩ | ⟨rover,real,free',sound',⟨c,member,large⟩,one⟩⟩ := morecore_run linked sound some int
    · refine ⟨0,h',free,?_,grown,.inl ⟨rfl,sound'⟩⟩
      rw [ran,extend,bind_ok more]
      rfl
    · subst rover
      -- there is a block now, so the second round finds one
      have left : free'.length + 1 ≤ fuel - (free.length + 1) := by omega
      rw [ran,extend,bind_ok more,if_neg real,bind_ok (ptr_run (sound'.mapped sound'.rover))]
      rcases search_circle sound' some left with ⟨prev,c,fits,ran⟩ | ⟨small,-⟩
      · obtain ⟨m,free',b,took,units,sound'⟩ := take_run sound' some fits
        rw [ran,took]
        exact ⟨_,_,free',rfl,grown,.inr ⟨b,rfl,units,sound'⟩⟩
      · exact absurd (small c member) (Nat.not_lt.mpr large)

end Xv6Ext2.Umalloc
