import Xv6Ext2.Umalloc.Malloc
import Xv6Ext2.Vm.Args

/-! `malloc` is safe for requests of at most 2^31 - 16 bytes, in every heap, and for no others. -/
namespace Xv6Ext2.Umalloc
open Lib Bio
open Vm (kernBase pages)

/-- `growproc` and `sys_sbrk` do to the size of a process what `sbrk` does, as long as some memory is left. -/
theorem sbrk_agrees (k : Vm.Linked) (pgdir n : UInt32) (s : Vm.Machine) (h : Process) (left : h.sz + n = 0 → n < 0x80000000) :
    Meets (Vm.growproc k ⟨pgdir,h.sz⟩ n) s
      (fun r _ => ∃ grants h', sbrk n {h with grants := grants} = .ok (if r.1 < 0 then 0xFFFFFFFF else h.sz,h') ∧ h'.sz = r.2.sz ∧
        h'.mem = h.mem) fun _ => True := by
  rw [Vm.growproc]
  by_cases grows : n ≠ 0 ∧ n < 0x80000000
  · rw [if_pos grows,Vm.allocuvm]
    by_cases high : h.sz + n ≥ kernBase
    · rw [if_pos high]
      refine .pure_intro ⟨h.grants,h,?_,rfl,rfl⟩
      rw [sbrk,if_pos grows,if_pos high]
      rfl
    · rw [if_neg high]
      by_cases wraps : h.sz + n < h.sz
      · have some : h.sz ≠ 0 := by
          intro zero
          rw [zero] at wraps
          exact UInt32.not_lt_zero wraps
        rw [if_pos wraps]
        refine .step rfl ?_
        rw [if_neg some]
        refine .pure_intro ⟨h.grants,h,?_,rfl,rfl⟩
        rw [sbrk,if_pos grows,if_neg high,if_pos wraps]
        rfl
      · rw [if_neg wraps]
        refine (Vm.allocLoop_size _ _ _ _).bind ?_
        intro sz s' size
        by_cases failed : sz = 0
        · rw [if_pos failed]
          refine .pure_intro ⟨[],{h with grants := []},?_,rfl,rfl⟩
          rw [sbrk,if_pos grows,if_neg high,if_neg wraps]
          rfl
        · obtain rfl := size.resolve_left failed
          rw [if_neg failed]
          refine .pure_intro ⟨[true],{h with sz := h.sz + n, grants := [], got := (h.sz,n) :: h.got},?_,rfl,rfl⟩
          rw [sbrk,if_pos grows,if_neg high,if_neg wraps]
          rfl
  · rw [if_neg grows]
    by_cases shrinks : n ≠ 0
    · have negative : ¬ n < 0x80000000 := fun small => grows ⟨shrinks,small⟩
      rw [if_pos shrinks,Vm.deallocuvm]
      by_cases wraps : h.sz + n ≥ h.sz
      · rw [if_pos wraps]
        refine .step rfl ?_
        by_cases none : h.sz = 0
        · rw [if_pos none]
          refine .pure_intro ⟨h.grants,h,?_,rfl,rfl⟩
          rw [sbrk,if_neg grows,if_pos shrinks,if_pos wraps,if_pos none]
          rfl
        · rw [if_neg none]
          refine .pure_intro ⟨h.grants,h,?_,rfl,rfl⟩
          rw [sbrk,if_neg grows,if_pos shrinks,if_pos wraps,if_neg none]
          rfl
      · have some : h.sz + n ≠ 0 := fun zero => negative (left zero)
        rw [if_neg wraps]
        refine Meets.bind (m := fun sz _ => sz = h.sz + n) ((Meets.trivial _ _).bind fun _ _ _ => .pure_intro rfl) ?_
        rintro sz s' rfl
        rw [if_neg some]
        refine .pure_intro ⟨h.grants,{h with sz := h.sz + n},?_,rfl,rfl⟩
        rw [sbrk,if_neg grows,if_pos shrinks,if_neg wraps,if_neg some]
        rfl
    · rw [if_neg shrinks]
      refine .pure_intro ⟨h.grants,h,?_,rfl,rfl⟩
      rw [sbrk,if_neg grows,if_neg shrinks]
      rfl

/-- A heap before the first call, or one with a list. -/
inductive Ready (base : UInt32) (h : Process) : List Block → Prop
  | unused (none : h.freep = 0) (got : h.got = []) (room : base.toNat + 8 ≤ h.sz.toNat) (low : h.sz.toNat < 2147483648) : Ready base h []
  | used {free live : List Block} (sound : Sound base h free live) : Ready base h live

variable {base nbytes : UInt32} {h : Process} {live : List Block}

theorem start_run (linked : base ≠ 0) (ready : Ready base h live) :
    ∃ h' free, start base h = .ok ((),h') ∧ h'.sz = h.sz ∧ Sound base h' free live := by
  cases ready with
  | unused none got room low =>
    have mapped : Mapped h base := ⟨low,room⟩
    refine ⟨{h with mem := withUnits (withNext h.mem base base) base 0, freep := base},[],?_,rfl,?_⟩
    · rw [start,bind_ok (show Umalloc.freep h = .ok (h.freep,h) from rfl),if_pos none,bind_ok (setPtr_run mapped),
        bind_ok (show setFreep base _ = .ok ((),_) from rfl)]
      exact setSize_run (h := {h with mem := withNext h.mem base base, freep := base}) mapped
    · refine ⟨⟨low,room,.nil,?_,?_,?_⟩,.nil,⟨?_,trivial⟩,unitsOf_withUnits,?_,List.mem_cons_self⟩
      · exact fun b never => absurd never List.not_mem_nil
      · exact fun b never => absurd never List.not_mem_nil
      · dsimp only
        rw [got]
        rfl
      · exact nextOf_withUnits.trans nextOf_withNext
      · exact fun b never => absurd never List.not_mem_nil
  | used sound =>
    refine ⟨h,_,?_,rfl,sound⟩
    rw [start,bind_ok (show Umalloc.freep h = .ok (h.freep,h) from rfl),if_neg (sound.rover_ne_zero linked)]
    rfl

theorem malloc_run (linked : base ≠ 0) (ready : Ready base h live) (some : 0 < (unitsFor nbytes).toNat)
    (int : 8 * (unitsFor nbytes).toNat < 2147483648) :
    ∃ r h' free', malloc base nbytes h = .ok (r,h') ∧ h.sz ≤ h'.sz ∧
      ((r = 0 ∧ Sound base h' free' live) ∨
        ∃ b : Block, r = b.addr + headerSize ∧ b.units = unitsFor nbytes ∧ Sound base h' free' (b :: live)) := by
  obtain ⟨h₁,free,started,size,sound⟩ := start_run linked ready
  obtain ⟨r,h',free',ran,grown,outcome⟩ := search_run linked sound some int le_rfl
  refine ⟨r,h',free',?_,size ▸ grown,outcome⟩
  rw [malloc,bind_ok started,bind_ok (show Umalloc.freep h₁ = .ok (h₁.freep,h₁) from rfl),
    bind_ok (show rounds h₁ = .ok (h₁.sz.toNat + 4,h₁) from rfl),bind_ok (ptr_run (sound.mapped sound.rover))]
  exact ran

/-- What `malloc` promises: it returns, the process does not shrink, and the bytes of the block came from `sbrk`. -/
def Safe (base nbytes : UInt32) (h : Process) : Prop :=
  ∃ r h', malloc base nbytes h = .ok (r,h') ∧ h.sz ≤ h'.sz ∧ (r = 0 ∨ ∀ x < nbytes.toNat, Obtained h'.got (r.toNat + x))

theorem toNat_unitsFor (nbytes : UInt32) : (unitsFor nbytes).toNat = (nbytes.toNat + 7) % 4294967296 / 8 + 1 := by
  have := nbytes.toNat_lt
  rw [unitsFor,UInt32.toNat_add,UInt32.toNat_div,UInt32.toNat_sub,UInt32.toNat_add,show headerSize.toNat = 8 from rfl,
    show (1 : UInt32).toNat = 1 from rfl]
  omega

theorem malloc_safe (linked : base ≠ 0) (ready : Ready base h live) (small : nbytes.toNat ≤ 2147483632) : Safe base nbytes h := by
  have units := toNat_unitsFor nbytes
  have some : 0 < (unitsFor nbytes).toNat := by omega
  have int : 8 * (unitsFor nbytes).toNat < 2147483648 := by omega
  obtain ⟨r,h',free',ran,grown,⟨rfl,-⟩ | ⟨b,rfl,count,sound⟩⟩ := malloc_run linked ready some int
  · exact ⟨0,h',ran,grown,.inl rfl⟩
  · refine ⟨_,h',ran,grown,.inr ?_⟩
    intro x inside
    have low := sound.blocks.low
    have atB := sound.blocks.inside b (by simp)
    have whole := b.last_eq
    have place : b.first = b.addr.toNat := rfl
    rw [count,units] at whole
    have payload : (b.addr + headerSize).toNat = b.addr.toNat + 8 := by
      rw [UInt32.toNat_add,show headerSize.toNat = 8 from rfl]
      omega
    apply sound.blocks.obtained b (by simp)
    · omega
    · omega

/-- A process of two pages that has not called `malloc`. -/
def twoPages : Process := ⟨fun _ => 0,0,8192,[true],[]⟩

theorem twoPages_ready : Ready 4096 twoPages [] := .unused rfl rfl (by decide) (by decide)

theorem malloc_wraps (large : 4294967289 ≤ nbytes.toNat) : ¬ Safe 4096 nbytes twoPages := by
  have units : unitsFor nbytes = unitsFor 0 := by
    apply UInt32.toNat_inj.mp
    have := nbytes.toNat_lt
    rw [toNat_unitsFor,toNat_unitsFor,UInt32.toNat_zero]
    omega
  have same : malloc 4096 nbytes = malloc 4096 0 := by rw [malloc,malloc,units]
  have seen : probe (malloc 4096 0) twoPages (fun r h' => some (r,h'.got)) = some (40960,[(8192,32768)]) := by decide +kernel
  obtain ⟨r,h',ran,value⟩ := probe_eq_some seen
  obtain ⟨rfl,got⟩ := Prod.mk.inj (Option.some.inj value)
  rintro ⟨r',h'',ran',-,outcome⟩
  rw [same,ran] at ran'
  obtain ⟨rfl,rfl⟩ := Prod.mk.inj (Except.ok.inj ran')
  rcases outcome with zero | inside
  · exact absurd zero (by decide)
  · obtain ⟨g,member,_,below⟩ := inside 40960 (by omega)
    rw [got] at member
    rw [List.mem_singleton.mp member] at below
    exact absurd below (by decide)

theorem sbrk_negative {n : UInt32} (int : n = 0 ∨ 0x80000000 ≤ n) (some : h.sz ≠ 0) :
    sbrk n h = .error .dangling ∨ ∃ h', sbrk n h = .ok (h.sz,h') ∧ h'.sz ≤ h.sz := by
  have grows : ¬ (n ≠ 0 ∧ n < 0x80000000) := by
    rintro ⟨nonzero,small⟩
    exact UInt32.not_le.mpr small (int.resolve_left nonzero)
  rw [sbrk,if_neg grows]
  by_cases shrinks : n ≠ 0
  · rw [if_pos shrinks]
    by_cases wraps : h.sz + n ≥ h.sz
    · rw [if_pos wraps,if_neg some]
      exact .inr ⟨h,rfl,UInt32.le_refl _⟩
    · rw [if_neg wraps]
      by_cases none : h.sz + n = 0
      · exact .inl (if_pos none)
      · rw [if_neg none]
        exact .inr ⟨_,rfl,UInt32.le_of_lt (UInt32.not_le.mp wraps)⟩
  · rw [if_neg shrinks]
    exact .inr ⟨h,rfl,UInt32.le_refl _⟩

theorem morecore_negative {nu : UInt32} (size : h.sz = 8192) (low : 268435456 ≤ nu.toNat) (high : nu.toNat ≤ 536870912) :
    morecore nu h = .error .dangling := by
  have large : ¬ nu < 4096 := by
    rw [UInt32.lt_iff_toNat_lt,show (4096 : UInt32).toNat = 4096 from rfl]
    omega
  have int : nu * headerSize = 0 ∨ 0x80000000 ≤ nu * headerSize := by
    rw [UInt32.le_iff_toNat_le,← UInt32.toNat_inj,UInt32.toNat_mul,show headerSize.toNat = 8 from rfl,UInt32.toNat_zero,
      show (0x80000000 : UInt32).toNat = 2147483648 from rfl]
    omega
  rw [morecore,if_neg large]
  rcases sbrk_negative int (by rw [size]; decide) with stopped | ⟨h',ran,smaller⟩
  · exact bind_error stopped _
  · rw [bind_ok ran,size,if_neg (by decide)]
    have few : pages h'.sz ≤ 2 := by
      rw [size] at smaller
      have bound := UInt32.le_iff_toNat_le.mp smaller
      rw [show (8192 : UInt32).toNat = 8192 from rfl] at bound
      rw [pages]
      omega
    have outside : setSize 8192 nu h' = .error .dangling := by
      rw [setSize,store,if_neg]
      rw [show ((8192 : UInt32) + 4).toNat = 8196 from rfl]
      omega
    exact bind_error outside _

theorem malloc_negative (low : 2147483632 < nbytes.toNat) (high : nbytes.toNat < 4294967289) : ¬ Safe 4096 nbytes twoPages := by
  have units := toNat_unitsFor nbytes
  have some : 0 < (unitsFor nbytes).toNat := by omega
  obtain ⟨h₁,free,started,size,sound⟩ := start_run (by decide) twoPages_ready
  have whole : h₁.sz.toNat = 8192 := congrArg UInt32.toNat size
  have few := sound.few
  rintro ⟨r,h',ran,-⟩
  rw [malloc,bind_ok started,bind_ok (show Umalloc.freep h₁ = .ok (h₁.freep,h₁) from rfl),
    bind_ok (show rounds h₁ = .ok (h₁.sz.toNat + 4,h₁) from rfl),bind_ok (ptr_run (sound.mapped sound.rover))] at ran
  rcases search_circle sound some (by omega : free.length + 1 ≤ h₁.sz.toNat + 4) with ⟨prev,c,fits,-⟩ | ⟨-,more⟩
  · -- no block of two pages is that large
    have atC := sound.blocks.inside c (List.mem_append_left _ fits.block)
    have units := c.last_eq
    have large := fits.large
    omega
  · rw [more,extend,bind_error (morecore_negative size (by omega) (by omega))] at ran
    contradiction

theorem malloc_safe_iff (nbytes : UInt32) :
    (∀ (base : UInt32) (h : Process) (live : List Block), base ≠ 0 → Ready base h live → Safe base nbytes h) ↔ nbytes ≤ 2147483632 := by
  rw [UInt32.le_iff_toNat_le,show (2147483632 : UInt32).toNat = 2147483632 from rfl]
  constructor
  · intro every
    have safe := every 4096 twoPages [] (by decide) twoPages_ready
    by_contra large
    by_cases wraps : 4294967289 ≤ nbytes.toNat
    · exact malloc_wraps wraps safe
    · exact malloc_negative (by omega) (by omega) safe
  · intro small base h live linked ready
    exact malloc_safe linked ready small

theorem malloc_unsafe : ¬ ∀ (nbytes base : UInt32) (h : Process) (live : List Block), base ≠ 0 → Ready base h live → Safe base nbytes h := by
  intro every
  exact malloc_wraps (by decide) (every 0xFFFFFFFF 4096 twoPages [] (by decide) twoPages_ready)

end Xv6Ext2.Umalloc
