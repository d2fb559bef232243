import Xv6Ext2.Vm.Exec
import Xv6Ext2.Vm.Kvm

/-! The image that `exec` loads. Whatever the program headers say, the pages below its size are mapped, so that `loaduvm` finds
the pages that it writes. -/
namespace Xv6Ext2.Vm
open Lib Bio Function
open Vfs (Ref)

variable {k : Linked} {s s' s'' : Machine} {d f sz : UInt32} {others hand : Set UInt32} {n : Nat}

structure Scribbled (s s' : Machine) (d : UInt32) : Prop where
  free : s'.free = s.free
  mem : ∀ g, (∀ n, ¬Owns s.mem d (.user n) g) → s'.mem g = s.mem g

namespace Scribbled

theorem refl (s : Machine) (d : UInt32) : Scribbled s s d := ⟨rfl,fun _ _ => rfl⟩

theorem tables (scribbled : Scribbled s s' d) (sep : Separate k s d others) (g : UInt32) (inside : InTables s.mem d g) :
    s'.mem g = s.mem g := scribbled.mem g fun _ owned => sep.user_apart owned inside

theorem trans (first : Scribbled s s' d) (second : Scribbled s' s'' d) (sep : Separate k s d others) : Scribbled s s'' d := by
  refine ⟨second.free.trans first.free,?_⟩
  intro g outside
  rw [second.mem g fun n owned => outside n ((owns_congr (first.tables sep) _).mp owned)]
  exact first.mem g outside

theorem conserves (scribbled : Scribbled s s' d) (sep : Separate k s d others) : Conserves s s' d hand hand := by
  refine ⟨?_,?_⟩
  · intro f
    simp only [Has,scribbled.free,owns_congr (scribbled.tables sep)]
  · intro g outside
    exact scribbled.mem g fun n owned => outside (.inr (.inr ⟨_,owned⟩))

end Scribbled

/-- The image has the pages below `sz`, which come from the pages that were free in `s`. -/
structure Loaded (k : Linked) (s s' : Machine) (d : UInt32) (others : Set UInt32) (sz : UInt32) : Prop where
  sep : Separate k s' d others
  kernel : KernelPart k s'.mem d
  drawn : Drawn s s' d ∅
  exact : ∀ n < 524288, Present (pte s'.mem d n) ↔ n < pages sz
  low : sz.toNat < 2147483648

theorem Loaded.fresh (sep : Separate k s' d others) (kernel : KernelPart k s'.mem d) (drawn : Drawn s s' d ∅)
    (empty : ∀ n < 524288, ¬Present (pte s'.mem d n)) : Loaded k s s' d others 0 := by
  have zero : pages 0 = 0 := rfl
  refine ⟨sep,kernel,drawn,?_,by decide⟩
  intro n low
  rw [zero]
  exact ⟨fun present => absurd present (empty n low),fun never => absurd never (Nat.not_lt_zero n)⟩

theorem Loaded.scribble (loaded : Loaded k s s' d others sz) (scribbled : Scribbled s' s'' d) : Loaded k s s'' d others sz := by
  have tables := scribbled.tables loaded.sep
  refine ⟨loaded.sep.congr tables scribbled.free,loaded.kernel.congr fun n _ inside => pte_congr inside tables,
    loaded.drawn.trans (scribbled.conserves loaded.sep),?_,loaded.low⟩
  intro n inside
  rw [pte_congr (by omega) tables]
  exact loaded.exact n inside

theorem Loaded.clear (loaded : Loaded k s s' d others sz) (n : Nat) (above : pages sz ≤ n) (below : n < 524288) :
    ¬Present (pte s'.mem d n) := by
  rw [loaded.exact n below]
  omega

theorem pages_le {sz : UInt32} (low : sz.toNat < 2147483648) : pages sz ≤ 524288 := by
  rw [pages]
  omega

theorem Filled.kernel {lo hi : Nat} (filled : Filled s s' d lo hi hand) (part : KernelPart k s.mem d) (bound : hi ≤ 524288) :
    KernelPart k s'.mem d :=
  part.congr fun n _ inside => filled.old n inside (by omega)

theorem Loaded.filled {newsz : UInt32} (loaded : Loaded k s s' d others sz) (order : sz.toNat ≤ newsz.toNat)
    (low : newsz.toNat < 2147483648) (sep : Separate k s'' d others) (filled : Filled s' s'' d (pages sz) (pages newsz) ∅) :
    Loaded k s s'' d others newsz := by
  have bound := pages_le low
  have more := pages_mono order
  refine ⟨sep,filled.kernel loaded.kernel bound,?_,?_,low⟩
  · exact loaded.drawn.trans (filled.conserves loaded.sep bound fun n above below => loaded.clear n above (by omega))
  · intro n inside
    by_cases new : pages sz ≤ n ∧ n < pages newsz
    · obtain ⟨f,_,entry,_⟩ := filled.new n new.1 new.2
      rw [entry]
      exact ⟨fun _ => new.2,fun _ => present_entry _ _⟩
    · rw [filled.old n (by omega) new,loaded.exact n inside]
      omega

/-- What `bad:` needs of a directory: it is freed with everything that was drawn for it. -/
structure Holding (k : Linked) (s s' : Machine) (d : UInt32) (others : Set UInt32) : Prop where
  sep : Separate k s' d others
  drawn : Drawn s s' d ∅

theorem Loaded.holding (loaded : Loaded k s s' d others sz) : Holding k s s' d others := ⟨loaded.sep,loaded.drawn⟩

theorem allocuvm_image (loaded : Loaded k s s' d others sz) (newsz : UInt32) :
    Meets (allocuvm k d sz newsz) s'
      (fun r s'' => Holding k s s'' d others ∧ (r ≠ 0 → Loaded k s s'' d others r ∧ newsz.toNat ≤ r.toNat)) fun _ => False := by
  have base : kernBase.toNat = 2147483648 := rfl
  have low := loaded.low
  by_cases high : newsz ≥ kernBase
  · rw [allocuvm,if_pos high]
    exact .pure_intro ⟨loaded.holding,fun no => absurd rfl no⟩
  · have user : newsz.toNat < 2147483648 := by
      rw [ge_iff_le,UInt32.le_iff_toNat_le,base] at high
      omega
    by_cases smaller : newsz < sz
    · rw [allocuvm,if_neg high,if_pos smaller]
      rw [UInt32.lt_iff_toNat_lt] at smaller
      exact .pure_intro ⟨loaded.holding,fun _ => ⟨loaded,smaller.le⟩⟩
    · have order : sz.toNat ≤ newsz.toNat := by
        rw [UInt32.lt_iff_toNat_lt] at smaller
        omega
      refine (allocuvm_meets loaded.sep order user loaded.clear).mono ?_ fun _ never => never
      intro r s'' after
      obtain ⟨sep,result⟩ := after
      rcases result with ⟨is,filled,_⟩ | ⟨is,restored,_⟩
      · have image := loaded.filled order user sep filled
        rw [is]
        exact ⟨image.holding,fun _ => ⟨image,le_rfl⟩⟩
      · exact ⟨⟨sep,loaded.drawn.trans restored.conserves⟩,fun no => absurd is no⟩

section

variable {φ α : Type} {K K' : Kernel φ} {fail : Fault → Prop}

theorem onVm_run {x : M α} {a : α} (ran : x K.vm = .ok (a,s)) : onVm x K = .ok (a,{K with vm := s}) := by rw [onVm,ran]

theorem onVm_meets {x : M α} {post : α → Kernel φ → Prop} (meets : Meets x K.vm (fun a s => post a {K with vm := s}) fail) :
    Meets (onVm x) K post fail := by
  cases ran : x K.vm with
  | error e =>
    rw [Meets,ran] at meets
    exact .of_error (by rw [onVm,ran]) meets
  | ok r => exact .of_ok (by rw [onVm,ran]) (meets.result ran)

theorem onFiles_meets {x : Lib.Exec Fault φ α} {post : α → Kernel φ → Prop}
    (meets : Meets x K.files (fun a s => post a {K with files := s}) fail) : Meets (onFiles x) K post fail := by
  cases ran : x K.files with
  | error e =>
    rw [Meets,ran] at meets
    exact .of_error (by rw [onFiles,ran]) meets
  | ok r => exact .of_ok (by rw [onFiles,ran]) (meets.result ran)

def Files.Faults (F : Files φ) (e : Fault) : Prop :=
  (∃ path s, F.namei path s = .error e) ∨ ∃ ip off n s, F.readi ip off n s = .error e

def Kernel.rest (K : Kernel φ) : Nat × (Ref → Nat) × (Ref → Bool) × Process := (K.ops,K.refs,K.locked,K.proc)

theorem onVm_quiet {x : M α} {post : α → Machine → Prop} (meets : Meets x K.vm post fail) :
    Meets (onVm x) K (fun a K' => post a K'.vm ∧ K'.rest = K.rest) fail :=
  onVm_meets (meets.mono (fun _ _ holds => ⟨holds,rfl⟩) fun _ => id)

/-- A read may come back with less than it was asked for. -/
def Files.Short (F : Files φ) : Prop := ∃ ip off n s got s', F.readi ip off n s = .ok (got,s') ∧ got.result ≠ n

theorem readi_meets (F : Files φ) (ip : Ref) (off n : UInt32) :
    Meets (readi F ip off n) K (fun got K' => K'.vm = K.vm ∧ K'.rest = K.rest ∧ (got.result ≠ n → F.Short)) F.Faults := by
  refine onFiles_meets ?_
  cases ran : F.readi ip off n K.files with
  | error e => exact .of_error ran (.inr ⟨ip,off,n,_,ran⟩)
  | ok r => exact .of_ok ran ⟨rfl,rfl,fun less => ⟨ip,off,n,_,_,_,ran,less⟩⟩

theorem store_scribbles (owned : Owns s.mem d (.user n) f) (off len : Nat) (src : Nat → UInt8) :
    Meets (store f off len src) s (fun _ s' => Scribbled s s' d) fail := by
  refine .of_ok rfl ⟨rfl,?_⟩
  intro g outside
  have other : g ≠ f := fun here => outside n (here ▸ owned)
  exact update_of_ne other _ _

theorem loadLoop_meets (F : Files φ) (ip : Ref) (offset : UInt32) {addr size : UInt32} (loaded : Loaded k s K.vm d others sz)
    (aligned : addr.toNat % 4096 = 0) (inside : addr.toNat + size.toNat ≤ sz.toNat) (fuel : Nat) (i : UInt32) (page : i.toNat = 4096 * n)
    (below : n ≤ size.toNat / 4096 + 1) (enough : size.toNat / 4096 + 1 < n + fuel) :
    Meets (loadLoop F d addr ip offset size fuel i) K
      (fun r K' => Scribbled K.vm K'.vm d ∧ K'.rest = K.rest ∧ (r < 0 → F.Short)) F.Faults := by
  have low := loaded.low
  induction fuel generalizing K i n with
  | zero => omega
  | succ fuel ih =>
    rw [loadLoop]
    by_cases more : i < size
    · rw [if_pos more]
      rw [UInt32.lt_iff_toNat_lt] at more
      have sum : (addr + i).toNat = 4096 * (addr.toNat / 4096 + n) := by
        rw [UInt32.toNat_add]
        omega
      have number : (addr + i).toNat / 4096 = addr.toNat / 4096 + n := by omega
      have mapped : addr.toNat / 4096 + n < pages sz := by
        rw [pages]
        omega
      have present := (loaded.exact (addr.toNat / 4096 + n) (by omega)).mpr mapped
      obtain ⟨t,there⟩ := present_table present
      have walked : walkpgdir d (addr + i) false K.vm = .ok (some ⟨t,(addr.toNat / 4096 + n) % 1024⟩,K.vm) := by
        rw [← number] at there ⊢
        exact walk_present there false
      have read : word t ((addr.toNat / 4096 + n) % 1024) K.vm = .ok (pte K.vm.mem d (addr.toNat / 4096 + n),K.vm) := by
        rw [pte_table there]
        rfl
      have owned : Owns K.vm.mem d (.user (addr.toNat / 4096 + n)) (pteAddr (pte K.vm.mem d (addr.toNat / 4096 + n))) :=
        ⟨by omega,present,rfl⟩
      refine .step (t := K) (onVm_run walked) (.step (t := K) (onVm_run read) ((readi_meets F ip _ _).bind ?_))
      intro got K₁ after
      obtain ⟨same,rest,less⟩ := after
      rw [← same] at owned
      have loaded₁ : Loaded k s K₁.vm d others sz := same ▸ loaded
      rw [← same]
      refine (onVm_quiet (store_scribbles owned 0 _ got.bytes)).bind ?_
      intro _ K₂ after
      obtain ⟨scribbled,rest₂⟩ := after
      by_cases short : got.result ≠ if size - i < pgSize then size - i else pgSize
      · rw [if_pos short]
        exact .pure_intro ⟨scribbled,rest₂.trans rest,fun _ => less short⟩
      · rw [if_neg short]
        have next : (i + pgSize).toNat = 4096 * (n + 1) := by
          rw [toNat_next (by omega)]
          omega
        refine (ih (loaded₁.scribble scribbled) (i + pgSize) next (by omega) (by omega)).mono ?_ fun _ => id
        intro _ K₃ after
        exact ⟨scribbled.trans after.1 loaded₁.sep,after.2.1.trans (rest₂.trans rest),after.2.2⟩
    · rw [if_neg more]
      exact .pure_intro ⟨.refl _ _,rfl,fun no => absurd no (by decide)⟩

theorem loaduvm_meets (F : Files φ) (ip : Ref) (offset : UInt32) {addr size : UInt32} (loaded : Loaded k s K.vm d others sz)
    (aligned : addr.toNat % 4096 = 0) (inside : addr.toNat + size.toNat ≤ sz.toNat) :
    Meets (loaduvm F d addr ip offset size) K
      (fun r K' => Scribbled K.vm K'.vm d ∧ K'.rest = K.rest ∧ (r < 0 → F.Short)) F.Faults := by
  rw [loaduvm,if_neg (not_not.mpr aligned)]
  exact loadLoop_meets F ip offset loaded aligned inside _ 0 rfl (Nat.zero_le _) (by omega)

theorem loadImage_meets (F : Files φ) (ip : Ref) (rest : Nat) (off sz : UInt32) (loaded : Loaded k s K.vm d others sz) :
    Meets (loadImage k F d ip rest off sz) K
      (fun r K' => Holding k s K'.vm d others ∧ K'.rest = K.rest ∧ ∀ sz', r = some sz' → Loaded k s K'.vm d others sz') F.Faults := by
  induction rest generalizing K off sz with
  | zero =>
    refine .pure_intro ⟨loaded.holding,rfl,?_⟩
    intro sz' is
    exact Option.some.inj is ▸ loaded
  | succ rest ih =>
    rw [loadImage]
    refine (readi_meets F ip off 32).bind ?_
    intro got K₁ after
    obtain ⟨same,rest₁,_⟩ := after
    have loaded₁ : Loaded k s K₁.vm d others sz := same ▸ loaded
    have refused (K' : Kernel φ) (holding : Holding k s K'.vm d others) (quiet : K'.rest = K.rest) :
        Meets (pure none : X φ (Option UInt32)) K'
          (fun r K' => Holding k s K'.vm d others ∧ K'.rest = K.rest ∧ ∀ sz', r = some sz' → Loaded k s K'.vm d others sz') F.Faults :=
      .pure_intro ⟨holding,quiet,fun _ never => absurd never (by simp)⟩
    have goOn (K' : Kernel φ) (sz' : UInt32) (image : Loaded k s K'.vm d others sz') (quiet : K'.rest = K.rest) :
        Meets (loadImage k F d ip rest (off + 32) sz') K'
          (fun r K' => Holding k s K'.vm d others ∧ K'.rest = K.rest ∧ ∀ sz', r = some sz' → Loaded k s K'.vm d others sz') F.Faults := by
      refine (ih (off + 32) sz' image).mono ?_ fun _ => id
      intro r K'' after
      exact ⟨after.1,after.2.1.trans quiet,after.2.2⟩
    by_cases short : got.result ≠ 32
    · rw [if_pos short]
      exact refused K₁ loaded₁.holding rest₁
    · rw [if_neg short]
      generalize Proghdr.ofBytes got.bytes = ph
      by_cases other : ph.type ≠ elfProgLoad
      · rw [if_pos other]
        exact goOn K₁ sz loaded₁ rest₁
      · rw [if_neg other]
        by_cases less : ph.memsz < ph.filesz
        · rw [if_pos less]
          exact refused K₁ loaded₁.holding rest₁
        · rw [if_neg less]
          by_cases wraps : ph.vaddr + ph.memsz < ph.vaddr
          · rw [if_pos wraps]
            exact refused K₁ loaded₁.holding rest₁
          · rw [if_neg wraps]
            refine (onVm_quiet ((allocuvm_image loaded₁ (ph.vaddr + ph.memsz)).excuse fun _ never => never.elim)).bind ?_
            intro r K₂ after
            obtain ⟨⟨holding,image⟩,quiet⟩ := after
            by_cases failed : r = 0
            · rw [if_pos failed]
              exact refused K₂ holding (quiet.trans rest₁)
            · rw [if_neg failed]
              obtain ⟨loaded₂,reach⟩ := image failed
              by_cases crooked : ph.vaddr.toNat % 4096 ≠ 0
              · rw [if_pos crooked]
                exact refused K₂ holding (quiet.trans rest₁)
              · rw [if_neg crooked]
                have fits : ph.vaddr.toNat + ph.filesz.toNat ≤ r.toNat := by
                  have bound := ph.vaddr.toNat_lt
                  have bound' := ph.memsz.toNat_lt
                  rw [UInt32.lt_iff_toNat_lt] at less wraps
                  rw [UInt32.toNat_add] at wraps reach
                  omega
                refine (loaduvm_meets F ip ph.off loaded₂ (not_not.mp crooked) fits).bind ?_
                intro r₃ K₃ after
                have loaded₃ := loaded₂.scribble after.1
                have quiet₃ := after.2.1.trans (quiet.trans rest₁)
                by_cases short : r₃ < 0
                · rw [if_pos short]
                  exact refused K₃ loaded₃.holding quiet₃
                · rw [if_neg short]
                  exact goOn K₃ r loaded₃ quiet₃

end

end Xv6Ext2.Vm
