import Xv6Ext2.Vm.Load
import Xv6Ext2.Vm.Copyout

/-! The user stack that `exec` builds: one page with a page below it that user code cannot reach, so that whatever is copied to
the stack stays in its page. -/
namespace Xv6Ext2.Vm
open Lib Bio

variable {k : Linked} {s s' s'' : Machine} {d f sz : UInt32} {others : Set UInt32} {n top : Nat} {m : Memory}

theorem KernelPart.barred (part : KernelPart k m d) (above : 524288 ≤ n) (below : n < 1048576) : ¬Reach m d n := by
  intro reach
  by_cases covered : ∃ e ∈ kmap k, e.Covers n
  · obtain ⟨e,member,covers⟩ := covered
    have user := reach.2
    rw [part.mapped e member n below covers] at user
    exact (kmap_good k e member).not_user n user
  · refine part.rest n above below ?_ reach.1
    intro e member covers
    exact covered ⟨e,member,covers⟩

theorem KernelPart.devices (part : KernelPart k m d) (above : 1040384 ≤ n) (below : n < 1048576) :
    ∃ t, tableAt m d (n / 1024) = some t := by
  have member : (⟨devSpace,devSpace,0,pteW⟩ : Kmap) ∈ kmap k := by simp [kmap]
  have covers : Kmap.Covers ⟨devSpace,devSpace,0,pteW⟩ n := by
    have first : Kmap.first ⟨devSpace,devSpace,0,pteW⟩ = 1040384 := by decide
    have last : Kmap.last ⟨devSpace,devSpace,0,pteW⟩ = 1048575 := by decide
    rw [Kmap.Covers,first,last]
    omega
  apply present_table
  rw [part.mapped _ member n below covers]
  exact present_entry _ _

/-- The image with its stack: page `top` is for the stack, and the page below it is out of reach. -/
structure Stacked (k : Linked) (s s' : Machine) (d : UInt32) (others : Set UInt32) (sz : UInt32) (top : Nat) : Prop where
  loaded : Loaded k s s' d others sz
  size : sz.toNat = 4096 * (top + 1)
  second : 1 ≤ top
  reach : Reach s'.mem d top
  guard : ¬User (pte s'.mem d (top - 1))

namespace Stacked

theorem scribble (stacked : Stacked k s s' d others sz top) (scribbled : Scribbled s' s'' d) : Stacked k s s'' d others sz top := by
  have low := stacked.loaded.low
  have size := stacked.size
  have tables := scribbled.tables stacked.loaded.sep
  refine ⟨stacked.loaded.scribble scribbled,size,stacked.second,?_,?_⟩
  · rw [Reach,pte_congr (by omega) tables]
    exact stacked.reach
  · rw [pte_congr (by omega) tables]
    exact stacked.guard

theorem page_eq (stacked : Stacked k s s' d others sz top) (scribbled : Scribbled s' s'' d) : pte s''.mem d top = pte s'.mem d top := by
  have low := stacked.loaded.low
  have size := stacked.size
  exact pte_congr (by omega) (scribbled.tables stacked.loaded.sep)

theorem table (stacked : Stacked k s s' d others sz top) (below : n ≤ top) : ∃ t, tableAt s'.mem d (n / 1024) = some t := by
  have low := stacked.loaded.low
  have size := stacked.size
  apply present_table
  rw [stacked.loaded.exact n (by omega),pages]
  omega

end Stacked

theorem Loaded.owned (loaded : Loaded k s s' d others sz) (below : n < 1048576) (reach : Reach s'.mem d n) :
    Owns s'.mem d (.user n) (pteAddr (pte s'.mem d n)) := by
  by_cases low : n < 524288
  · exact ⟨low,reach.1,rfl⟩
  · exact absurd reach (loaded.kernel.barred (by omega) below)

theorem copyout_copies (stacked : Stacked k s s' d others sz top) {va len : UInt32} (p : Nat → UInt8)
    (fits : va.toNat + len.toNat ≤ sz.toNat) :
    ∃ r s'', copyout none d va p len s' = .ok (r,s'') ∧ Copyout s'.mem s' s'' d va p len.toNat r := by
  have size := stacked.size
  have lowSize := stacked.loaded.low
  have tabled : Tabled s'.mem d va len.toNat := by
    intro i inside before
    have here : address va i = va.toNat + i := Nat.mod_eq_of_lt (by omega)
    rw [here]
    exact stacked.table (by omega)
  have plain : Plain s'.mem d va len.toNat := by
    intro i inside reach
    have small := address_lt va i
    exact stacked.loaded.sep.user_apart (stacked.loaded.owned (by omega) reach)
  exact copyoutLoop_meets none (len.toNat + 1) p len (by omega) (fun _ _ => rfl) tabled plain

/-- In the kernel's half `copyout` writes nothing: the page is refused, or its table is missing. -/
theorem copyout_kernel (stacked : Stacked k s s' d others sz top) {va len : UInt32} (p : Nat → UInt8) (some : 0 < len.toNat)
    (kernel : 2147483648 ≤ va.toNat) :
    copyout none d va p len s' = .ok (-1,s') ∨ copyout none d va p len s' = .error .dangling ∧ va.toNat < 4261412864 := by
  have bound := va.toNat_lt
  have more : len > 0 := by
    rw [gt_iff_lt,UInt32.lt_iff_toNat_lt]
    exact some
  cases there : tableAt s'.mem d (va.toNat / 4096 / 1024) with
  | some t =>
    obtain ⟨_,_,_,_,_,ran⟩ := copyoutLoop_page none len.toNat p len more (fun _ _ => rfl) there
    rw [if_neg (stacked.loaded.kernel.barred (by omega) (by omega))] at ran
    exact .inl ran
  | none =>
    have down : (pgRoundDown va).toNat = 4096 * (va.toNat / 4096) := by
      rw [toNat_pgRoundDown]
      omega
    refine .inr ⟨?_,?_⟩
    · rw [copyout,copyoutLoop,if_pos more]
      exact bind_error (uva2ka_missing (fun _ _ => rfl) down there) _
    · by_contra device
      obtain ⟨t,found⟩ := stacked.loaded.kernel.devices (n := va.toNat / 4096) (by omega) (by omega)
      rw [there] at found
      cases found

theorem copyout_stack (stacked : Stacked k s s' d others sz top) {sp va len : UInt32} (p : Nat → UInt8) (some : 0 < len.toNat)
    (high : sp.toNat ≤ sz.toNat)
    (place : va.toNat + len.toNat ≤ sp.toNat ∧ sp.toNat ≤ va.toNat + len.toNat + 3 ∨ 2147483648 ≤ va.toNat)
    (low : 4096 * top ≤ sp.toNat) :
    Meets (copyout none d va p len) s'
      (fun r s'' => Scribbled s' s'' d ∧ (r < 0 ∧ (va.toNat < 4096 * top ∨ 2147483648 ≤ va.toNat) ∨
        r = 0 ∧ 4096 * top ≤ va.toNat ∧ va.toNat + len.toNat ≤ sp.toNat ∧ s''.mem (pteAddr (pte s'.mem d top)) =
          (s'.mem (pteAddr (pte s'.mem d top))).patch (va.toNat % 4096) len.toNat p))
      fun e => e = .dangling ∧ 2147483648 ≤ va.toNat ∧ va.toNat < 4261412864 := by
  have size := stacked.size
  have lowSize := stacked.loaded.low
  rcases place with ⟨fits,close⟩ | kernel
  · have here (i : Nat) (inside : i < len.toNat) : address va i = va.toNat + i := Nat.mod_eq_of_lt (by omega)
    have inside : va.toNat + len.toNat ≤ sz.toNat := by omega
    obtain ⟨r,s'',ran,copied⟩ := copyout_copies stacked p inside
    have scribbled : Scribbled s' s'' d := by
      refine ⟨copied.free,?_⟩
      intro g outside
      refine copied.confined g ?_
      intro i inside reach same
      have owned := stacked.loaded.owned (by rw [here i inside]; omega) reach
      rw [same] at outside
      exact outside _ owned
    refine .of_ok ran ⟨scribbled,?_⟩
    by_cases early : va.toNat < 4096 * top
    · -- the range has a byte in the page below the stack
      have barred : r ≠ 0 := by
        intro done
        have second := stacked.second
        have there : ∃ i < len.toNat, (va.toNat + i) / 4096 = top - 1 := by
          by_cases near : 4096 * (top - 1) ≤ va.toNat
          · exact ⟨0,by omega,by omega⟩
          · exact ⟨4096 * top - 4 - va.toNat,by omega,by omega⟩
        obtain ⟨i,inside,page⟩ := there
        have reach := copied.exact.mp done i inside
        rw [here i inside,page] at reach
        exact stacked.guard reach.2
      have result := copied.result
      exact .inl ⟨by omega,.inl early⟩
    · have done : r = 0 := by
        rw [copied.exact]
        intro i inside
        have page : (va.toNat + i) / 4096 = top := by omega
        rw [here i inside,page]
        exact stacked.reach
      refine .inr ⟨done,by omega,fits,?_⟩
      have target_eq (i : Nat) (inside : i < len.toNat) : target s'.mem d va i = pteAddr (pte s'.mem d top) := by
        have page : (va.toNat + i) / 4096 = top := by omega
        rw [target,here i inside,page]
      have offset (i : Nat) (inside : i < len.toNat) : address va i % 4096 = va.toNat % 4096 + i := by
        rw [here i inside]
        omega
      refine Bytes.ext_byte _ _ ?_
      intro o small
      rw [Bytes.byte_patch _ _ _ _ _ small]
      by_cases inside : va.toNat % 4096 ≤ o ∧ o < va.toNat % 4096 + len.toNat
      · rw [if_pos inside]
        have index : o - va.toNat % 4096 < len.toNat := by omega
        have written := (copied.copied done).bytes (o - va.toNat % 4096) index (by
          intro j later bounded same
          have offsets := congrArg Prod.snd same
          dsimp only at offsets
          rw [offset j bounded,offset _ index] at offsets
          omega)
        rw [target_eq _ index,offset _ index] at written
        have place : va.toNat % 4096 + (o - va.toNat % 4096) = o := by omega
        rw [place] at written
        exact written
      · rw [if_neg inside]
        refine (copied.copied done).rest _ o ?_
        intro i bounded same
        have offsets := congrArg Prod.snd same
        dsimp only at offsets
        rw [offset i bounded] at offsets
        omega
  · rcases copyout_kernel stacked p some kernel with refused | ⟨trapped,below⟩
    · exact .of_ok refused ⟨.refl s' d,.inl ⟨by decide,.inr kernel⟩⟩
    · exact .of_error trapped ⟨rfl,kernel,below⟩

/-- Strings with their addresses, in a page at `base`: each lies below the one before it, and all above `sp`. -/
structure Placed (page : Page) (base sp : Nat) (placed : List (UInt32 × List UInt8)) : Prop where
  inside : ∀ a ∈ placed, sp ≤ a.1.toNat ∧ a.1.toNat + a.2.length + 1 ≤ base + 4096
  order : placed.Pairwise fun a b => b.1.toNat + b.2.length + 1 ≤ a.1.toNat
  bytes : ∀ a ∈ placed, ∀ j ≤ a.2.length, page.byte (a.1.toNat - base + j) = cstring a.2 j

theorem Placed.patch {page : Page} {base sp off len : Nat} {placed : List (UInt32 × List UInt8)} (there : Placed page base sp placed)
    (below : base + off + len ≤ sp) (p : Nat → UInt8) : Placed (page.patch off len p) base (base + off) placed := by
  refine ⟨?_,there.order,?_⟩
  · intro a member
    have inside := there.inside a member
    omega
  · intro a member j last
    have inside := there.inside a member
    rw [Bytes.byte_patch_outside _ _ _ _ _ (by omega)]
    exact there.bytes a member j last

theorem Placed.push {page : Page} {base sp : Nat} {va : UInt32} {arg : List UInt8} {placed : List (UInt32 × List UInt8)}
    (there : Placed page base sp placed) (low : base ≤ va.toNat) (below : va.toNat + arg.length + 1 ≤ sp) (high : sp ≤ base + 4096) :
    Placed (page.patch (va.toNat - base) (arg.length + 1) (cstring arg)) base va.toNat (placed ++ [(va,arg)]) := by
  have start : base + (va.toNat - base) = va.toNat := by omega
  have old : Placed (page.patch (va.toNat - base) (arg.length + 1) (cstring arg)) base va.toNat placed := by
    have lower := there.patch (p := cstring arg) (by omega : base + (va.toNat - base) + (arg.length + 1) ≤ sp)
    rw [start] at lower
    exact lower
  refine ⟨?_,?_,?_⟩
  · intro a member
    rcases List.mem_append.mp member with early | last
    · exact old.inside a early
    · rw [List.mem_singleton.mp last]
      dsimp only
      omega
  · refine List.pairwise_append.mpr ⟨there.order,List.pairwise_singleton _ _,?_⟩
    intro a early b last
    have inside := there.inside a early
    rw [List.mem_singleton.mp last]
    dsimp only
    omega
  · intro a member
    rcases List.mem_append.mp member with early | last
    · exact old.bytes a early
    · rw [List.mem_singleton.mp last]
      intro j within
      exact Bytes.byte_patch_inside _ _ _ _ _ (by dsimp only at within; omega) (by omega)

/-- The room on the stack for the strings. -/
def stringRoom : List (List UInt8) → Nat
  | [] => 0
  | arg :: rest => (arg.length + 4) / 4 * 4 + stringRoom rest

/-- `argv` is short enough for `ustack` and for the page of the stack. -/
def Fits (argv : List (List UInt8)) : Prop := argv.length ≤ 32 ∧ stringRoom argv + 4 * (argv.length + 4) ≤ 4096

instance (argv : List (List UInt8)) : Decidable (Fits argv) := inferInstanceAs (Decidable (_ ∧ _))

/-- The trap that the read through the null pointer ends in; it takes a string that goes around the address space to below the
devices. -/
def Wraps (argv : List (List UInt8)) (e : Fault) : Prop := e = .dangling ∧ ∃ a ∈ argv, 33554432 ≤ a.length

theorem pushArgs_meets (argv : List (List UInt8)) (strings : ∀ a ∈ argv, a.length < 2147483648)
    (stacked : Stacked k s s' d others sz top) (page : pteAddr (pte s'.mem d top) = f) (placed : List (UInt32 × List UInt8))
    (few : placed.length ≤ 32) (sp : UInt32) (low : 4096 * top ≤ sp.toNat) (high : sp.toNat ≤ sz.toNat) (aligned : sp.toNat % 4 = 0)
    (there : Placed (s'.mem f) (4096 * top) sp.toNat placed) :
    Meets (pushArgs d argv sp (placed.map Prod.fst)) s'
      (fun r s'' => Scribbled s' s'' d ∧ (r ≠ none ↔ placed.length + argv.length ≤ 32 ∧ 4096 * top + stringRoom argv ≤ sp.toNat) ∧
        ∀ sp' ptrs, r = some (sp',ptrs) → ∃ placed', ptrs = placed'.map Prod.fst ∧
          placed'.map Prod.snd = placed.map Prod.snd ++ argv ∧ placed'.length ≤ 32 ∧ 4096 * top ≤ sp'.toNat ∧
          sp'.toNat + stringRoom argv = sp.toNat ∧ sp'.toNat % 4 = 0 ∧ Placed (s''.mem f) (4096 * top) sp'.toNat placed')
      (Wraps argv) := by
  have size := stacked.size
  have lowSize := stacked.loaded.low
  have second := stacked.second
  induction argv generalizing s' sp placed with
  | nil =>
    refine .pure_intro ⟨.refl s' d,⟨fun _ => ⟨few,low⟩,fun _ => Option.some_ne_none _⟩,?_⟩
    intro sp' ptrs is
    obtain ⟨rfl,rfl⟩ := Prod.mk.inj (Option.some.inj is)
    exact ⟨placed,rfl,(List.append_nil _).symm,few,low,rfl,aligned,there⟩
  | cons arg rest ih =>
    have length := strings arg List.mem_cons_self
    have count : (arg :: rest).length = rest.length + 1 := List.length_cons
    have room : stringRoom (arg :: rest) = (arg.length + 4) / 4 * 4 + stringRoom rest := rfl
    rw [pushArgs,List.length_map]
    by_cases many : placed.length ≥ maxArg
    · rw [if_pos many]
      rw [maxArg] at many
      exact .pure_intro ⟨.refl s' d,⟨fun no => absurd rfl no,fun fits => by omega⟩,fun _ _ never => absurd never (by simp)⟩
    · rw [if_neg many]
      dsimp only
      rw [maxArg] at many
      have len : (UInt32.ofNat (arg.length + 1)).toNat = arg.length + 1 := by
        rw [UInt32.toNat_ofNat']
        omega
      generalize UInt32.ofNat (arg.length + 1) = width at len ⊢
      have masked : ((sp - width) &&& ~~~3).toNat = (sp - width).toNat / 4 * 4 := toNat_clear _ 2 (by decide) _ rfl
      have difference : (sp - width).toNat = (4294967296 - width.toNat + sp.toNat) % 4294967296 := UInt32.toNat_sub _ _
      generalize (sp - width) &&& ~~~3 = va at masked ⊢
      have place : va.toNat + width.toNat ≤ sp.toNat ∧ sp.toNat ≤ va.toNat + width.toNat + 3 ∨ 2147483648 ≤ va.toNat := by omega
      have copying : Meets (copyout none d va (cstring arg) width) s' _ (Wraps (arg :: rest)) :=
        (copyout_stack stacked (cstring arg) (by omega) high place low).excuse fun e trapped =>
          ⟨trapped.1,arg,List.mem_cons_self,by omega⟩
      refine copying.bind ?_
      intro r s₁ after
      obtain ⟨scribbled,result⟩ := after
      rcases result with ⟨failed,early⟩ | ⟨done,inside,below,written⟩
      · rw [if_pos failed]
        refine .pure_intro ⟨scribbled,⟨fun no => absurd rfl no,fun fits => ?_⟩,fun _ _ never => absurd never (by simp)⟩
        omega
      · rw [if_neg (by omega)]
        have offset : va.toNat % 4096 = va.toNat - 4096 * top := by omega
        rw [page,offset,len] at written
        have there₁ : Placed (s₁.mem f) (4096 * top) va.toNat (placed ++ [(va,arg)]) := by
          rw [written]
          exact there.push inside (by omega) (by omega)
        have one : (placed ++ [(va,arg)]).length = placed.length + 1 := by rw [List.length_append,List.length_singleton]
        have names : placed.map Prod.fst ++ [va] = (placed ++ [(va,arg)]).map Prod.fst := by rw [List.map_append]; rfl
        rw [names]
        refine (ih (fun a member => strings a (List.mem_cons_of_mem _ member)) (stacked.scribble scribbled)
          (by rw [stacked.page_eq scribbled,page]) (placed ++ [(va,arg)]) (by omega) va inside (by omega) (by omega) there₁).mono ?_ ?_
        · intro r' s₂ after
          obtain ⟨scribbled₂,fits,pushed⟩ := after
          refine ⟨scribbled.trans scribbled₂ stacked.loaded.sep,fits.trans (by omega),?_⟩
          intro sp' ptrs is
          obtain ⟨placed',first,next,small,inside',left,rest'⟩ := pushed sp' ptrs is
          refine ⟨placed',first,?_,small,inside',by omega,rest'⟩
          rw [next,List.map_append,List.append_assoc]
          rfl
        · intro e after
          obtain ⟨trapped,a,member,long⟩ := after
          exact ⟨trapped,a,List.mem_cons_of_mem _ member,long⟩

def load (m : Memory) (d : UInt32) (va : Nat) : Option UInt8 :=
  if Reach m d (va / 4096) then some ((m (pteAddr (pte m d (va / 4096)))).byte (va % 4096)) else none

def loadWord (m : Memory) (d : UInt32) (va : Nat) : Option UInt32 :=
  if Reach m d (va / 4096) ∧ va % 4 = 0 then some (u32 (m (pteAddr (pte m d (va / 4096)))).byte (va % 4096)) else none

/-- The stack of a program: `argc` and `argv` above the return address, then the pointers and their null, then the strings with
the addresses of `placed`; all in the last page, with a page below it that user code cannot reach. -/
structure ArgStack (m : Memory) (d sz esp : UInt32) (argv : List (List UInt8)) (placed : List (UInt32 × List UInt8)) : Prop where
  args : placed.map Prod.snd = argv
  argc : ∃ w, loadWord m d (esp.toNat + 4) = some w ∧ w.toNat = argv.length
  vector : ∃ w, loadWord m d (esp.toNat + 8) = some w ∧ w.toNat = esp.toNat + 12
  pointers : ∀ i a, placed[i]? = some a → loadWord m d (esp.toNat + 12 + 4 * i) = some a.1
  null : loadWord m d (esp.toNat + 12 + 4 * argv.length) = some 0
  strings : ∀ a ∈ placed, ∀ j ≤ a.2.length, load m d (a.1.toNat + j) = some (cstring a.2 j)
  apart : placed.Pairwise fun a b => b.1.toNat + b.2.length + 1 ≤ a.1.toNat
  above : ∀ a ∈ placed, esp.toNat + 16 + 4 * argv.length ≤ a.1.toNat
  below : ∀ a ∈ placed, a.1.toNat + a.2.length + 1 ≤ sz.toNat
  inside : sz.toNat ≤ esp.toNat + 4096 ∧ esp.toNat + 16 + 4 * argv.length ≤ sz.toNat
  aligned : esp.toNat % 4 = 0
  size : sz.toNat % 4096 = 0 ∧ 8192 ≤ sz.toNat
  guard : ¬Reach m d (sz.toNat / 4096 - 2)

theorem wordBytes_word (page : Page) (words : List UInt32) {off j : Nat} (inside : j < words.length) (fits : off + 4 * words.length ≤ 4096) :
    u32 (page.patch off (4 * words.length) (wordBytes words)).byte (off + 4 * j) = words.getD j 0 := by
  apply u32_stored
  intro i small
  have quotient : (4 * j + i) / 4 = j := by omega
  have remainder : (4 * j + i) % 4 = i := by omega
  rw [Nat.add_assoc,Bytes.byte_patch_inside _ _ _ _ _ (by omega) fits,wordBytes,quotient,remainder]

theorem length_ustack (sp : UInt32) (ptrs : List UInt32) : (ustack sp ptrs).length = ptrs.length + 4 := by
  rw [ustack,List.length_append,List.length_append]
  simp only [List.length_cons,List.length_nil]
  omega

theorem ustack_pointer (sp : UInt32) (ptrs : List UInt32) {i : Nat} (inside : i < ptrs.length) :
    (ustack sp ptrs).getD (3 + i) 0 = ptrs.getD i 0 := by
  rw [ustack,List.append_assoc,List.getD_append_right _ _ _ _ (by simp),List.getD_append _ _ _ _ (by simpa using inside)]
  congr 1
  simp

theorem ustack_null (sp : UInt32) (ptrs : List UInt32) : (ustack sp ptrs).getD (3 + ptrs.length) 0 = 0 := by
  have length : ([0xFFFFFFFF,UInt32.ofNat ptrs.length,sp - UInt32.ofNat (ptrs.length + 1) * 4] ++ ptrs).length = 3 + ptrs.length := by
    rw [List.length_append]
    rfl
  rw [ustack,List.getD_append_right _ _ _ _ length.le,length,Nat.sub_self]
  rfl

namespace Stacked

theorem loadWord_eq (stacked : Stacked k s s' d others sz top) {va : Nat} (low : 4096 * top ≤ va) (high : va < 4096 * top + 4096)
    (aligned : va % 4 = 0) : loadWord s'.mem d va = some (u32 (s'.mem (pteAddr (pte s'.mem d top))).byte (va - 4096 * top)) := by
  have page : va / 4096 = top := by omega
  have offset : va % 4096 = va - 4096 * top := by omega
  rw [loadWord,page,offset,if_pos ⟨stacked.reach,aligned⟩]

theorem load_eq (stacked : Stacked k s s' d others sz top) {va : Nat} (low : 4096 * top ≤ va) (high : va < 4096 * top + 4096) :
    load s'.mem d va = some ((s'.mem (pteAddr (pte s'.mem d top))).byte (va - 4096 * top)) := by
  have page : va / 4096 = top := by omega
  have offset : va % 4096 = va - 4096 * top := by omega
  rw [load,page,offset,if_pos stacked.reach]

end Stacked

theorem Placed.argStack {before : Page} {sp esp : UInt32} {argv : List (List UInt8)} {placed : List (UInt32 × List UInt8)}
    (stacked : Stacked k s s' d others sz top) (there : Placed before (4096 * top) sp.toNat placed) (args : placed.map Prod.snd = argv)
    (few : placed.length ≤ 32) (high : sp.toNat ≤ sz.toNat) (aligned : sp.toNat % 4 = 0) (low : 4096 * top ≤ esp.toNat)
    (start : esp.toNat + 4 * (placed.length + 4) = sp.toNat)
    (page : s'.mem (pteAddr (pte s'.mem d top)) =
      before.patch (esp.toNat - 4096 * top) (4 * (placed.length + 4)) (wordBytes (ustack sp (placed.map Prod.fst)))) :
    ArgStack s'.mem d sz esp argv placed := by
  have size := stacked.size
  have lowSize := stacked.loaded.low
  have second := stacked.second
  have count : argv.length = placed.length := by rw [← args,List.length_map]
  have words := length_ustack sp (placed.map Prod.fst)
  rw [List.length_map] at words
  have word (j : Nat) (inside : j < placed.length + 4) :
      loadWord s'.mem d (esp.toNat + 4 * j) = some ((ustack sp (placed.map Prod.fst)).getD j 0) := by
    have offset : esp.toNat + 4 * j - 4096 * top = esp.toNat - 4096 * top + 4 * j := by omega
    rw [stacked.loadWord_eq (by omega) (by omega) (by omega),page,offset,← words]
    exact congrArg some (wordBytes_word before _ (by omega) (by omega))
  have pages : sz.toNat / 4096 - 2 = top - 1 := by omega
  have kept := there.patch (p := wordBytes (ustack sp (placed.map Prod.fst)))
    (by omega : 4096 * top + (esp.toNat - 4096 * top) + 4 * (placed.length + 4) ≤ sp.toNat)
  rw [← page] at kept
  refine ⟨args,⟨_,word 1 (by omega),?_⟩,⟨_,word 2 (by omega),?_⟩,?_,?_,?_,there.order,?_,?_,⟨by omega,by omega⟩,by omega,
    ⟨by omega,by omega⟩,?_⟩
  · have value : (ustack sp (placed.map Prod.fst)).getD 1 0 = UInt32.ofNat (placed.map Prod.fst).length := rfl
    rw [value,List.length_map,UInt32.toNat_ofNat',count]
    omega
  · have value : (ustack sp (placed.map Prod.fst)).getD 2 0 = sp - UInt32.ofNat ((placed.map Prod.fst).length + 1) * 4 := rfl
    have four : (4 : UInt32).toNat = 4 := rfl
    have bound := sp.toNat_lt
    rw [value,List.length_map,UInt32.toNat_sub,UInt32.toNat_mul,UInt32.toNat_ofNat',four]
    omega
  · intro i a here
    obtain ⟨inside,is⟩ := List.getElem?_eq_some_iff.mp here
    have address : esp.toNat + 12 + 4 * i = esp.toNat + 4 * (3 + i) := by omega
    rw [address,word (3 + i) (by omega),ustack_pointer _ _ (by rw [List.length_map]; exact inside),List.getD_eq_getElem?_getD,
      List.getElem?_map,here]
    rfl
  · have address : esp.toNat + 12 + 4 * argv.length = esp.toNat + 4 * (3 + placed.length) := by omega
    have null := ustack_null sp (placed.map Prod.fst)
    rw [List.length_map] at null
    rw [address,word (3 + placed.length) (by omega),null]
  · intro a member j last
    have inside := there.inside a member
    have offset : a.1.toNat + j - 4096 * top = a.1.toNat - 4096 * top + j := by omega
    rw [stacked.load_eq (by omega) (by omega),offset,kept.bytes a member j last]
  · intro a member
    have inside := there.inside a member
    omega
  · intro a member
    have inside := there.inside a member
    omega
  · intro reach
    rw [pages] at reach
    exact stacked.guard reach.2

theorem pushStack_meets (argv : List (List UInt8)) (strings : ∀ a ∈ argv, a.length < 2147483648)
    (stacked : Stacked k s s' d others sz top) :
    Meets (pushStack d argv sz) s'
      (fun r s'' => Scribbled s' s'' d ∧ (r ≠ none ↔ Fits argv) ∧ ∀ esp, r = some esp → ∃ placed, ArgStack s''.mem d sz esp argv placed)
      (Wraps argv) := by
  have size := stacked.size
  have lowSize := stacked.loaded.low
  have second := stacked.second
  generalize page : pteAddr (pte s'.mem d top) = f
  have nothing : Placed (s'.mem f) (4096 * top) sz.toNat [] := by
    refine ⟨?_,.nil,?_⟩
    · intro a never
      exact absurd never List.not_mem_nil
    · intro a never
      exact absurd never List.not_mem_nil
  rw [pushStack,Fits]
  refine (pushArgs_meets argv strings stacked page [] (by simp) sz (by omega) le_rfl (by omega) nothing).bind ?_
  intro r s₁ after
  obtain ⟨scribbled,fits,result⟩ := after
  rw [List.length_nil] at fits
  cases r with
  | none =>
    refine .pure_intro ⟨scribbled,⟨fun no => absurd rfl no,fun enough => ?_⟩,fun _ never => absurd never (by simp)⟩
    exact absurd rfl (fits.mpr ⟨by omega,by omega⟩)
  | some pushed =>
    obtain ⟨sp,ptrs⟩ := pushed
    obtain ⟨placed,names,args,few,low,left,aligned,there⟩ := result sp ptrs rfl
    have count : ptrs.length = placed.length := by rw [names,List.length_map]
    have number : placed.length = argv.length := by rw [← List.length_map (f := Prod.snd),args]; rfl
    have stacked₁ := stacked.scribble scribbled
    dsimp only
    have width : (UInt32.ofNat (3 + ptrs.length + 1) * 4).toNat = 4 * (placed.length + 4) := by
      have four : (4 : UInt32).toNat = 4 := rfl
      rw [UInt32.toNat_mul,UInt32.toNat_ofNat',four]
      omega
    generalize UInt32.ofNat (3 + ptrs.length + 1) * 4 = len at width ⊢
    have difference : (sp - len).toNat = (4294967296 - len.toNat + sp.toNat) % 4294967296 := UInt32.toNat_sub _ _
    have bound := sp.toNat_lt
    have start : (sp - len).toNat = sp.toNat - len.toNat := by omega
    generalize sp - len = esp at start difference ⊢
    have copying : Meets (copyout none d esp (wordBytes (ustack sp ptrs)) len) s₁ _ (Wraps argv) :=
      (copyout_stack stacked₁ _ (by omega) (by omega) (.inl (by omega)) low).excuse fun e trapped => by omega
    refine copying.bind ?_
    intro r s₂ after
    obtain ⟨scribbled₂,result⟩ := after
    rcases result with ⟨failed,early⟩ | ⟨done,inside,below,written⟩
    · rw [if_pos failed]
      refine .pure_intro ⟨scribbled.trans scribbled₂ stacked.loaded.sep,⟨fun no => absurd rfl no,fun enough => ?_⟩,
        fun _ never => absurd never (by simp)⟩
      omega
    · rw [if_neg (by omega)]
      refine .pure_intro ⟨scribbled.trans scribbled₂ stacked.loaded.sep,⟨fun _ => ⟨by omega,by omega⟩,fun _ => Option.some_ne_none _⟩,?_⟩
      intro esp' is
      obtain rfl := Option.some.inj is
      refine ⟨placed,?_⟩
      have page₁ : pteAddr (pte s₁.mem d top) = f := by rw [stacked.page_eq scribbled,page]
      have page₂ : pteAddr (pte s₂.mem d top) = f := by rw [stacked₁.page_eq scribbled₂,page₁]
      have offset : esp.toNat % 4096 = esp.toNat - 4096 * top := by omega
      rw [page₁,offset,width,names] at written
      refine there.argStack (stacked₁.scribble scribbled₂) args few (by omega) aligned inside (by omega) ?_
      rw [page₂,written]

end Xv6Ext2.Vm
