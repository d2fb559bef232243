import Xv6Ext2.Vm.Program

/-! Arguments of system calls. `fetchint`, `fetchstr` and `argptr` compare what user code passes with the size of the process,
and the sums in these tests do not wrap because `growproc`, `fork` and `exec` keep the size below `KERNBASE`. -/
namespace Xv6Ext2.Vm
open Lib Bio
open Vfs (Ref)

/-- What the kernel reads at an address of the process that runs; nothing if the page is not mapped. -/
def peek (m : Memory) (d : UInt32) (va : Nat) : Option UInt8 :=
  if Present (pte m d (va / 4096)) then some ((m (pteAddr (pte m d (va / 4096)))).byte (va % 4096)) else none

def readByte (pgdir va : UInt32) : M UInt8 := fun s =>
  match peek s.mem pgdir va.toNat with
  | some b => .ok (b,s)
  | none => .error .dangling

/-- `*(int*)(addr)` -/
def readWord (pgdir addr : UInt32) : M UInt32 := do
  let b0 ← readByte pgdir addr
  let b1 ← readByte pgdir (addr + 1)
  let b2 ← readByte pgdir (addr + 2)
  let b3 ← readByte pgdir (addr + 3)
  return u32 (fun i => [b0,b1,b2,b3].getD i 0) 0

/-- `none` is the result -1. -/
def fetchint (p : Proc) (addr : UInt32) : M (Option UInt32) :=
  if addr ≥ p.sz ∨ addr + 4 > p.sz then return none
  else do
    let w ← readWord p.pgdir addr
    return some w

/-- The loop of `fetchstr`. -/
def fetchstrLoop (pgdir pp ep : UInt32) : Nat → UInt32 → M Int
  | 0, _ => fault .diverges
  | fuel + 1, s =>
    if s < ep then do
      if (← readByte pgdir s) = 0 then return signed (s - pp) else fetchstrLoop pgdir pp ep fuel (s + 1)
    else return -1

def fetchstr (p : Proc) (addr : UInt32) : M Int :=
  if addr ≥ p.sz then return -1 else fetchstrLoop p.pgdir addr p.sz (p.sz.toNat + 1) addr

def argint (p : Proc) (esp n : UInt32) : M (Option UInt32) := fetchint p (esp + 4 + 4 * n)

/-- `none` is the result -1, otherwise it gives the pointer. -/
def argptr (p : Proc) (esp n size : UInt32) : M (Option UInt32) := do
  match ← argint p esp n with
  | none => return none
  | some i => if signed size < 0 ∨ i ≥ p.sz ∨ i + size > p.sz then return none else return some i

def argstr (p : Proc) (esp n : UInt32) : M Int := do
  match ← argint p esp n with
  | none => return -1
  | some addr => fetchstr p addr

/-- The address space of a new process in `fork`. -/
def forkMemory (k : Linked) (p : Proc) : M (Option Proc) := do
  match ← copyuvm k p.pgdir p.sz with
  | none => return none
  | some pgdir => return some ⟨pgdir,p.sz⟩

/-- Sizes that processes get, with memory, files and arguments of any kind. -/
inductive Size (k : Linked) : UInt32 → Prop where
  | userinit : Size k pgSize
  | growproc {p p' : Proc} {n : UInt32} {s s' : Machine} {r : Int} : Size k p.sz → growproc k p n s = .ok ((r,p'),s') → Size k p'.sz
  | fork {p np : Proc} {s s' : Machine} : Size k p.sz → forkMemory k p s = .ok (some np,s') → Size k np.sz
  | exec {φ : Type} {F : Files φ} {path : List UInt8} {argv : List (List UInt8)} {K K' : Kernel φ} {r : Int} :
    Size k K.proc.sz → exec k F path argv K = .ok (r,K') → Size k K'.proc.sz

variable {k : Linked} {s : Machine} {d sz : UInt32}

theorem allocLoop_size (oldsz newsz : UInt32) (fuel : Nat) (a : UInt32) :
    Meets (allocLoop k d oldsz newsz fuel a) s (fun r _ => r = 0 ∨ r = newsz) fun _ => True := by
  induction fuel generalizing s a with
  | zero => exact .of_error rfl trivial
  | succ fuel ih =>
    rw [allocLoop]
    by_cases inside : a < newsz
    · rw [if_pos inside]
      refine (Meets.trivial _ _).bind ?_
      intro mem s₁ _
      cases mem with
      | none => exact (Meets.trivial _ _).bind fun _ _ _ => .pure_intro (.inl rfl)
      | some mem =>
        refine (Meets.trivial _ _).bind ?_
        intro _ s₂ _
        refine (Meets.trivial _ _).bind ?_
        intro mapped s₃ _
        by_cases failed : mapped < 0
        · rw [if_pos failed]
          exact (Meets.trivial _ _).bind fun _ _ _ => (Meets.trivial _ _).bind fun _ _ _ => .pure_intro (.inl rfl)
        · rw [if_neg failed]
          exact ih _
    · rw [if_neg inside]
      exact .pure_intro (.inr rfl)

theorem allocuvm_size (oldsz newsz : UInt32) :
    Meets (allocuvm k d oldsz newsz) s (fun r _ => r = 0 ∨ newsz < kernBase ∧ (r = newsz ∨ newsz < oldsz ∧ r = oldsz)) fun _ => True := by
  rw [allocuvm]
  by_cases high : newsz ≥ kernBase
  · rw [if_pos high]
    exact .pure_intro (.inl rfl)
  · rw [if_neg high]
    have low : newsz < kernBase := UInt32.not_le.mp high
    by_cases shrinks : newsz < oldsz
    · rw [if_pos shrinks]
      exact .pure_intro (.inr ⟨low,.inr ⟨shrinks,rfl⟩⟩)
    · rw [if_neg shrinks]
      refine (allocLoop_size oldsz newsz _ _).mono ?_ fun _ => id
      rintro r s' (failed | is)
      · exact .inl failed
      · exact .inr ⟨low,.inl is⟩

theorem deallocuvm_size (oldsz newsz : UInt32) :
    Meets (deallocuvm k d oldsz newsz) s (fun r _ => r ≤ oldsz) fun _ => True := by
  rw [deallocuvm]
  by_cases grows : newsz ≥ oldsz
  · rw [if_pos grows]
    exact .pure_intro (UInt32.le_refl _)
  · rw [if_neg grows]
    exact (Meets.trivial _ _).bind fun _ _ _ => .pure_intro (UInt32.le_of_lt (UInt32.not_le.mp grows))

theorem forkMemory_size (p : Proc) : Meets (forkMemory k p) s (fun r _ => ∀ np, r = some np → np.sz = p.sz) fun _ => True := by
  rw [forkMemory]
  refine (Meets.trivial _ _).bind ?_
  intro pgdir s₁ _
  cases pgdir with
  | none => exact .pure_intro fun _ never => absurd never (by simp)
  | some pgdir =>
    refine .pure_intro ?_
    intro np is
    rw [← Option.some.inj is]

theorem growproc_size (p : Proc) (n : UInt32) (low : p.sz < kernBase) :
    Meets (growproc k p n) s (fun r _ => r.2.sz < kernBase) fun _ => True := by
  rw [growproc]
  by_cases grows : n ≠ 0 ∧ n < 0x80000000
  · rw [if_pos grows]
    refine (allocuvm_size _ _).bind ?_
    intro sz s' size
    by_cases failed : sz = 0
    · rw [if_pos failed]
      exact .pure_intro low
    · rw [if_neg failed]
      refine .pure_intro ?_
      rcases size with zero | ⟨below,is | ⟨_,is⟩⟩
      · exact absurd zero failed
      · exact is ▸ below
      · exact is ▸ low
  · rw [if_neg grows]
    by_cases shrinks : n ≠ 0
    · rw [if_pos shrinks]
      refine (deallocuvm_size _ _).bind ?_
      intro sz s' size
      by_cases failed : sz = 0
      · rw [if_pos failed]
        exact .pure_intro low
      · rw [if_neg failed]
        exact .pure_intro (UInt32.lt_of_le_of_lt size low)
    · rw [if_neg shrinks]
      exact .pure_intro low

section

variable {φ α : Type} {K : Kernel φ}

theorem proc_of_rest {K' : Kernel φ} (same : K'.rest = K.rest) : K'.proc = K.proc := congrArg (fun rest => rest.2.2.2) same

theorem onVm_proc (x : M α) : Meets (onVm x) K (fun _ K' => K'.proc = K.proc) fun _ => True :=
  onVm_meets ((Meets.trivial x K.vm).mono (fun _ _ _ => rfl) fun _ => id)

theorem readi_proc (F : Files φ) (ip : Ref) (off n : UInt32) : Meets (readi F ip off n) K (fun _ K' => K'.proc = K.proc) fun _ => True :=
  (readi_meets F ip off n).mono (fun _ _ same => proc_of_rest same.2.1) fun _ _ => trivial

theorem loadLoop_proc (F : Files φ) (addr : UInt32) (ip : Ref) (offset sz : UInt32) (fuel : Nat) (i : UInt32) :
    Meets (loadLoop F d addr ip offset sz fuel i) K (fun _ K' => K'.proc = K.proc) fun _ => True := by
  induction fuel generalizing K i with
  | zero => exact .of_error rfl trivial
  | succ fuel ih =>
    rw [loadLoop]
    by_cases inside : i < sz
    · rw [if_pos inside]
      refine (onVm_proc _).bind ?_
      intro pte K₁ proc₁
      cases pte with
      | none => exact .of_error rfl trivial
      | some pte =>
        refine (onVm_proc _).bind ?_
        intro w K₂ proc₂
        dsimp only
        generalize (if sz - i < pgSize then sz - i else pgSize) = n
        refine (readi_proc F _ _ _).bind ?_
        intro got K₃ proc₃
        refine (onVm_proc _).bind ?_
        intro _ K₄ proc₄
        have proc : K₄.proc = K.proc := proc₄.trans (proc₃.trans (proc₂.trans proc₁))
        by_cases short : got.result ≠ n
        · rw [if_pos short]
          exact .pure_intro proc
        · rw [if_neg short]
          exact (ih _).mono (fun _ _ same => same.trans proc) fun _ => id
    · rw [if_neg inside]
      exact .pure_intro rfl

theorem loaduvm_proc (F : Files φ) (addr : UInt32) (ip : Ref) (offset sz : UInt32) :
    Meets (loaduvm F d addr ip offset sz) K (fun _ K' => K'.proc = K.proc) fun _ => True := by
  rw [loaduvm]
  by_cases crooked : addr.toNat % 4096 ≠ 0
  · rw [if_pos crooked]
    exact .of_error rfl trivial
  · rw [if_neg crooked]
    exact loadLoop_proc F addr ip offset sz _ _

theorem loadImage_size (F : Files φ) (ip : Ref) (rest : Nat) (off sz : UInt32) (low : sz < kernBase) :
    Meets (loadImage k F d ip rest off sz) K (fun r K' => K'.proc = K.proc ∧ ∀ sz', r = some sz' → sz' < kernBase) fun _ => True := by
  have failed {K' : Kernel φ} (same : K'.proc = K.proc) :
      Meets (pure none : X φ (Option UInt32)) K' (fun r K' => K'.proc = K.proc ∧ ∀ sz', r = some sz' → sz' < kernBase) fun _ => True :=
    .pure_intro ⟨same,fun _ never => absurd never (by simp)⟩
  induction rest generalizing K off sz with
  | zero => exact .pure_intro ⟨rfl,fun _ is => Option.some.inj is ▸ low⟩
  | succ rest ih =>
    rw [loadImage]
    refine (readi_proc F _ _ _).bind ?_
    intro got K₁ proc₁
    have next (sz : UInt32) (low : sz < kernBase) {K' : Kernel φ} (same : K'.proc = K.proc) :
        Meets (loadImage k F d ip rest (off + 32) sz) K' (fun r K' => K'.proc = K.proc ∧ ∀ sz', r = some sz' → sz' < kernBase) fun _ => True := by
      refine (ih _ sz low fun again => .pure_intro ⟨again,fun _ never => absurd never (by simp)⟩).mono ?_ fun _ => id
      intro r K'' after
      exact ⟨after.1.trans same,after.2⟩
    by_cases truncated : got.result ≠ 32
    · rw [if_pos truncated]
      exact failed proc₁
    rw [if_neg truncated]
    dsimp only
    generalize Proghdr.ofBytes got.bytes = ph
    by_cases other : ph.type ≠ elfProgLoad
    · rw [if_pos other]
      exact next sz low proc₁
    rw [if_neg other]
    by_cases smaller : ph.memsz < ph.filesz
    · rw [if_pos smaller]
      exact failed proc₁
    rw [if_neg smaller]
    by_cases wraps : ph.vaddr + ph.memsz < ph.vaddr
    · rw [if_pos wraps]
      exact failed proc₁
    rw [if_neg wraps]
    refine (onVm_quiet (allocuvm_size _ _)).bind ?_
    intro sz₁ K₂ after
    obtain ⟨size,rest₂⟩ := after
    have proc₂ : K₂.proc = K.proc := (proc_of_rest rest₂).trans proc₁
    by_cases zero : sz₁ = 0
    · rw [if_pos zero]
      exact failed proc₂
    rw [if_neg zero]
    have low₁ : sz₁ < kernBase := by
      rcases size with none | ⟨below,is | ⟨_,is⟩⟩
      · exact absurd none zero
      · exact is ▸ below
      · exact is ▸ low
    by_cases crooked : ph.vaddr.toNat % 4096 ≠ 0
    · rw [if_pos crooked]
      exact failed proc₂
    rw [if_neg crooked]
    refine (loaduvm_proc F _ _ _ _).bind ?_
    intro r K₃ proc₃
    by_cases refused : r < 0
    · rw [if_pos refused]
      exact failed (proc₃.trans proc₂)
    · rw [if_neg refused]
      exact next sz₁ low₁ (proc₃.trans proc₂)

theorem bad_proc (pgdir : Option UInt32) (ip : Option Ref) : Meets (bad k pgdir ip) K (fun _ K' => K'.proc = K.proc) fun _ => True := by
  cases pgdir with
  | none =>
    cases ip with
    | none => exact .of_ok rfl rfl
    | some ip => exact .of_ok rfl rfl
  | some d =>
    refine (onVm_proc _).bind ?_
    intro _ K' same
    cases ip with
    | none => exact .of_ok rfl same
    | some ip => exact .of_ok rfl same

theorem enter_size (path : List UInt8) (argv : List (List UInt8)) (eip : UInt32) (low : sz < kernBase) :
    Meets (enter k path argv d sz eip) K (fun _ K' => K'.proc = K.proc ∨ K'.proc.sz < kernBase) fun _ => True := by
  rw [enter]
  refine (onVm_proc _).bind ?_
  intro sp K₁ proc₁
  cases sp with
  | none => exact (bad_proc _ _).mono (fun _ _ same => .inl (same.trans proc₁)) fun _ => id
  | some sp =>
    refine .step rfl (.step rfl ((onVm_proc _).bind ?_))
    intro _ K₂ proc₂
    refine .pure_intro (.inr ?_)
    rw [proc₂]
    exact low

theorem exec_size (F : Files φ) (path : List UInt8) (argv : List (List UInt8)) :
    Meets (exec k F path argv) K (fun _ K' => K'.proc = K.proc ∨ K'.proc.sz < kernBase) fun _ => True := by
  have fails {K' : Kernel φ} (same : K'.proc = K.proc) (pgdir : Option UInt32) (ip : Option Ref) :
      Meets (bad k pgdir ip) K' (fun _ K' => K'.proc = K.proc ∨ K'.proc.sz < kernBase) fun _ => True :=
    (bad_proc pgdir ip).mono (fun _ _ again => .inl (again.trans same)) fun _ => id
  rw [exec]
  refine .step rfl (((namei_meets F path).excuse fun _ _ => trivial).bind ?_)
  intro r K₁ after
  obtain ⟨_,_,_,proc₁,_⟩ := after
  cases r with
  | none => exact .step rfl (.pure_intro (.inl proc₁))
  | some ip =>
    have locks : Meets (ilock ip) K₁ (fun _ K' => K'.proc = K.proc) fun _ => True := by
      rw [Meets,ilock]
      by_cases held : K₁.locked ip = true
      · rw [if_pos held]
        trivial
      · rw [if_neg held]
        exact proc₁
    refine locks.bind ?_
    intro _ K₂ proc₂
    refine (readi_proc F _ _ _).bind ?_
    intro got K₃ proc₃
    have proc₃ := proc₃.trans proc₂
    by_cases truncated : got.result ≠ 52
    · rw [if_pos truncated]
      exact fails proc₃ _ _
    rw [if_neg truncated]
    dsimp only
    generalize Elfhdr.ofBytes got.bytes = elf
    by_cases foreign : elf.magic ≠ elfMagic
    · rw [if_pos foreign]
      exact fails proc₃ _ _
    rw [if_neg foreign]
    refine (onVm_proc _).bind ?_
    intro pgdir K₄ proc₄
    have proc₄ := proc₄.trans proc₃
    cases pgdir with
    | none => exact fails proc₄ _ _
    | some pgdir =>
      refine (loadImage_size F ip _ _ 0 (by decide)).bind ?_
      intro image K₅ after
      have proc₅ := after.1.trans proc₄
      cases image with
      | none => exact fails proc₅ _ _
      | some sz =>
        have low := after.2 sz rfl
        dsimp only
        generalize two : pgRoundUp sz + 2 * pgSize = newsz
        refine .step rfl (.step rfl ?_)
        refine (onVm_quiet (allocuvm_size _ _)).bind ?_
        intro sz₁ K₆ after
        obtain ⟨size,rest₆⟩ := after
        have proc₆ : K₆.proc = K.proc := (proc_of_rest rest₆).trans proc₅
        by_cases zero : sz₁ = 0
        · rw [if_pos zero]
          exact fails proc₆ _ _
        rw [if_neg zero]
        have low₁ : sz₁ < kernBase := by
          have base : kernBase.toNat = 2147483648 := rfl
          have eight : (2 * pgSize).toNat = 8192 := rfl
          rw [UInt32.lt_iff_toNat_lt,base] at low
          have rounded := toNat_pgRoundUp (by omega : sz.toNat + 4095 < 2 ^ 32)
          rcases size with none | ⟨below,is | ⟨less,_⟩⟩
          · exact absurd none zero
          · exact is ▸ below
          · rw [← two,UInt32.lt_iff_toNat_lt,UInt32.toNat_add,eight] at less
            omega
        refine (onVm_proc _).bind ?_
        intro _ K₇ proc₇
        refine (enter_size path argv _ low₁).mono ?_ fun _ => id
        rintro r K₈ (same | below)
        · exact .inl (same.trans (proc₇.trans proc₆))
        · exact .inr below

end

theorem Size.low (reached : Size k sz) : sz < kernBase := by
  induction reached with
  | userinit => decide
  | growproc _ ran low => exact (growproc_size _ _ low).result ran
  | fork _ ran low =>
    rw [(forkMemory_size _).result ran _ rfl]
    exact low
  | exec _ ran low =>
    rcases (exec_size _ _ _).result ran with same | below
    · exact same ▸ low
    · exact below

/-- An address below the size that nothing is mapped at: the only thing that stops these functions. -/
def Unmapped (m : Memory) (d : UInt32) (sz : Nat) (e : Fault) : Prop := e = .dangling ∧ ∃ va < sz, peek m d va = none

theorem readByte_meets (va : UInt32) (inside : va.toNat < sz.toNat) :
    Meets (readByte d va) s (fun b s' => s' = s ∧ peek s.mem d va.toNat = some b) (Unmapped s.mem d sz.toNat) := by
  cases seen : peek s.mem d va.toNat with
  | none => exact .of_error (by rw [readByte,seen]) ⟨rfl,va.toNat,inside,seen⟩
  | some b => exact .of_ok (by rw [readByte,seen]) ⟨rfl,rfl⟩

theorem readWord_meets (addr : UInt32) (inside : addr.toNat + 4 ≤ sz.toNat) (low : sz < kernBase) :
    Meets (readWord d addr) s (fun _ s' => s' = s) (Unmapped s.mem d sz.toNat) := by
  have base : kernBase.toNat = 2147483648 := rfl
  rw [UInt32.lt_iff_toNat_lt,base] at low
  have next (i : UInt32) (small : i.toNat < 4) : (addr + i).toNat < sz.toNat := by
    rw [UInt32.toNat_add]
    omega
  rw [readWord]
  refine (readByte_meets addr (by omega)).bind ?_
  rintro b0 _ ⟨rfl,_⟩
  refine (readByte_meets (addr + 1) (next 1 (by decide))).bind ?_
  rintro b1 _ ⟨rfl,_⟩
  refine (readByte_meets (addr + 2) (next 2 (by decide))).bind ?_
  rintro b2 _ ⟨rfl,_⟩
  refine (readByte_meets (addr + 3) (next 3 (by decide))).bind ?_
  rintro b3 _ ⟨rfl,_⟩
  exact .pure_intro rfl

theorem fetchint_meets (p : Proc) (addr : UInt32) (low : p.sz < kernBase) :
    Meets (fetchint p addr) s (fun r s' => s' = s ∧ ∀ w, r = some w → addr.toNat + 4 ≤ p.sz.toNat) (Unmapped s.mem p.pgdir p.sz.toNat) := by
  have base : kernBase.toNat = 2147483648 := rfl
  have four : (4 : UInt32).toNat = 4 := rfl
  have below := low
  rw [UInt32.lt_iff_toNat_lt,base] at below
  rw [fetchint]
  by_cases outside : addr ≥ p.sz ∨ addr + 4 > p.sz
  · rw [if_pos outside]
    exact .pure_intro ⟨rfl,fun _ never => absurd never (by simp)⟩
  · rw [if_neg outside]
    obtain ⟨first,last⟩ := not_or.mp outside
    rw [ge_iff_le,UInt32.le_iff_toNat_le] at first
    rw [gt_iff_lt,UInt32.lt_iff_toNat_lt,UInt32.toNat_add,four] at last
    have inside : addr.toNat + 4 ≤ p.sz.toNat := by omega
    refine (readWord_meets addr inside low).bind ?_
    rintro w _ rfl
    exact .pure_intro ⟨rfl,fun _ _ => inside⟩

theorem argptr_meets (p : Proc) (esp n size : UInt32) (low : p.sz < kernBase) :
    Meets (argptr p esp n size) s
      (fun r s' => s' = s ∧ ∀ ptr, r = some ptr → ptr < p.sz ∧ 0 ≤ signed size ∧ (ptr.toNat : Int) + signed size ≤ p.sz.toNat)
      (Unmapped s.mem p.pgdir p.sz.toNat) := by
  have base : kernBase.toNat = 2147483648 := rfl
  have below := low
  rw [UInt32.lt_iff_toNat_lt,base] at below
  rw [argptr]
  refine (fetchint_meets p _ low).bind ?_
  rintro i _ ⟨rfl,_⟩
  cases i with
  | none => exact .pure_intro ⟨rfl,fun _ never => absurd never (by simp)⟩
  | some i =>
    dsimp only
    by_cases refused : signed size < 0 ∨ i ≥ p.sz ∨ i + size > p.sz
    · rw [if_pos refused]
      exact .pure_intro ⟨rfl,fun _ never => absurd never (by simp)⟩
    · rw [if_neg refused]
      refine .pure_intro ⟨rfl,?_⟩
      intro ptr is
      obtain rfl := Option.some.inj is
      obtain ⟨positive,more⟩ := not_or.mp refused
      obtain ⟨first,last⟩ := not_or.mp more
      have small : size < 0x80000000 := by
        by_contra negative
        have bound := size.toNat_lt
        rw [signed,if_neg negative] at positive
        omega
      have value : signed size = size.toNat := if_pos small
      have half : (0x80000000 : UInt32).toNat = 2147483648 := rfl
      rw [UInt32.lt_iff_toNat_lt,half] at small
      rw [gt_iff_lt,UInt32.lt_iff_toNat_lt,UInt32.toNat_add] at last
      refine ⟨UInt32.not_le.mp first,by omega,?_⟩
      rw [ge_iff_le,UInt32.le_iff_toNat_le] at first
      omega

structure StringAt (m : Memory) (d : UInt32) (addr len : Nat) : Prop where
  ends : peek m d (addr + len) = some 0
  before : ∀ j < len, ∃ b, peek m d (addr + j) = some b ∧ b ≠ 0

theorem fetchstrLoop_meets (pp : UInt32) (low : sz < kernBase) (fuel i : Nat) (q : UInt32) (place : q.toNat = pp.toNat + i)
    (upto : q.toNat ≤ sz.toNat) (enough : sz.toNat < q.toNat + fuel) (before : ∀ j < i, ∃ b, peek s.mem d (pp.toNat + j) = some b ∧ b ≠ 0) :
    Meets (fetchstrLoop d pp sz fuel q) s
      (fun r s' => s' = s ∧ (r ≠ -1 → ∃ len : Nat, r = len ∧ pp.toNat + len < sz.toNat ∧ StringAt s.mem d pp.toNat len))
      (Unmapped s.mem d sz.toNat) := by
  have base : kernBase.toNat = 2147483648 := rfl
  have below := low
  rw [UInt32.lt_iff_toNat_lt,base] at below
  induction fuel generalizing i q with
  | zero => omega
  | succ fuel ih =>
    rw [fetchstrLoop]
    by_cases inside : q < sz
    · rw [if_pos inside]
      rw [UInt32.lt_iff_toNat_lt] at inside
      refine (readByte_meets q inside).bind ?_
      rintro b _ ⟨rfl,seen⟩
      rw [place] at seen
      by_cases zero : b = 0
      · rw [if_pos zero]
        refine .pure_intro ⟨rfl,?_⟩
        intro _
        refine ⟨i,?_,by omega,zero ▸ seen,before⟩
        have distance : (q - pp).toNat = i := by
          have bound := pp.toNat_lt
          rw [UInt32.toNat_sub]
          omega
        have small : q - pp < 0x80000000 := by
          have half : (0x80000000 : UInt32).toNat = 2147483648 := rfl
          rw [UInt32.lt_iff_toNat_lt,half]
          omega
        rw [signed,if_pos small,distance]
      · rw [if_neg zero]
        have one : (1 : UInt32).toNat = 1 := rfl
        have next : (q + 1).toNat = q.toNat + 1 := by
          rw [UInt32.toNat_add,one]
          omega
        refine ih (i + 1) (q + 1) (by omega) (by omega) (by omega) ?_
        intro j early
        by_cases last : j = i
        · exact last ▸ ⟨b,seen,zero⟩
        · exact before j (by omega)
    · rw [if_neg inside]
      exact .pure_intro ⟨rfl,fun never => absurd rfl never⟩

theorem fetchstr_meets (p : Proc) (addr : UInt32) (low : p.sz < kernBase) :
    Meets (fetchstr p addr) s
      (fun r s' => s' = s ∧ (r ≠ -1 → ∃ len : Nat, r = len ∧ addr.toNat + len < p.sz.toNat ∧ StringAt s.mem p.pgdir addr.toNat len))
      (Unmapped s.mem p.pgdir p.sz.toNat) := by
  rw [fetchstr]
  by_cases outside : addr ≥ p.sz
  · rw [if_pos outside]
    exact .pure_intro ⟨rfl,fun never => absurd rfl never⟩
  · rw [if_neg outside]
    rw [ge_iff_le,UInt32.le_iff_toNat_le] at outside
    exact fetchstrLoop_meets addr low _ 0 addr rfl (by omega) (by omega) fun j never => absurd never (by omega)

theorem argstr_meets (p : Proc) (esp n : UInt32) (low : p.sz < kernBase) :
    Meets (argstr p esp n) s
      (fun r s' => s' = s ∧ (r ≠ -1 → ∃ (addr : UInt32) (len : Nat), argint p esp n s = .ok (some addr,s) ∧ r = len ∧
        addr.toNat + len < p.sz.toNat ∧ StringAt s.mem p.pgdir addr.toNat len)) (Unmapped s.mem p.pgdir p.sz.toNat) := by
  have read : Meets (argint p esp n) s _ _ := fetchint_meets p (esp + 4 + 4 * n) low
  rw [argstr]
  cases ran : argint p esp n s with
  | error e =>
    rw [Meets,ran] at read
    exact .of_error (bind_error ran _) read
  | ok r =>
    obtain ⟨i,s'⟩ := r
    obtain ⟨rfl,_⟩ := read.result ran
    refine .step ran ?_
    cases i with
    | none => exact .pure_intro ⟨rfl,fun never => absurd rfl never⟩
    | some addr =>
      refine (fetchstr_meets p addr low).mono ?_ fun _ => id
      intro r s' after
      refine ⟨after.1,fun accepted => ?_⟩
      obtain ⟨len,string⟩ := after.2 accepted
      exact ⟨addr,len,rfl,string⟩

/-- What `fetchint`, `argptr`, `fetchstr` and `argstr` accept lies in the process; they end and change nothing where all of it
is mapped. -/
theorem pointers_inside (k : Linked) (sz : UInt32) (reached : Size k sz) (d : UInt32) (s : Machine) :
    (∀ addr w s', fetchint ⟨d,sz⟩ addr s = .ok (some w,s') → addr.toNat + 4 ≤ sz.toNat) ∧
    (∀ esp n size ptr s', argptr ⟨d,sz⟩ esp n size s = .ok (some ptr,s') →
      ptr < sz ∧ 0 ≤ signed size ∧ (ptr.toNat : Int) + signed size ≤ sz.toNat) ∧
    (∀ addr r s', fetchstr ⟨d,sz⟩ addr s = .ok (r,s') → r ≠ -1 →
      ∃ len : Nat, r = len ∧ addr.toNat + len < sz.toNat ∧ StringAt s.mem d addr.toNat len) ∧
    (∀ esp n r s', argstr ⟨d,sz⟩ esp n s = .ok (r,s') → r ≠ -1 →
      ∃ (addr : UInt32) (len : Nat), argint ⟨d,sz⟩ esp n s = .ok (some addr,s) ∧ r = len ∧ addr.toNat + len < sz.toNat ∧
        StringAt s.mem d addr.toNat len) ∧
    ((∀ va < sz.toNat, peek s.mem d va ≠ none) → (∀ addr, ∃ r, fetchint ⟨d,sz⟩ addr s = .ok (r,s)) ∧
      (∀ esp n size, ∃ r, argptr ⟨d,sz⟩ esp n size s = .ok (r,s)) ∧ (∀ addr, ∃ r, fetchstr ⟨d,sz⟩ addr s = .ok (r,s)) ∧
      ∀ esp n, ∃ r, argstr ⟨d,sz⟩ esp n s = .ok (r,s)) := by
  have low := reached.low
  refine ⟨?_,?_,?_,?_,?_⟩
  · intro addr w s' ran
    exact ((fetchint_meets ⟨d,sz⟩ addr low).result ran).2 w rfl
  · intro esp n size ptr s' ran
    exact ((argptr_meets ⟨d,sz⟩ esp n size low).result ran).2 ptr rfl
  · intro addr r s' ran
    exact ((fetchstr_meets ⟨d,sz⟩ addr low).result ran).2
  · intro esp n r s' ran
    exact ((argstr_meets ⟨d,sz⟩ esp n low).result ran).2
  · intro mapped
    have never (e : Fault) : ¬Unmapped s.mem d sz.toNat e := by
      rintro ⟨_,va,inside,missing⟩
      exact mapped va inside missing
    refine ⟨?_,?_,?_,?_⟩
    · intro addr
      obtain ⟨r,_,ran,rfl,_⟩ := (fetchint_meets ⟨d,sz⟩ addr low).returns never
      exact ⟨r,ran⟩
    · intro esp n size
      obtain ⟨r,_,ran,rfl,_⟩ := (argptr_meets ⟨d,sz⟩ esp n size low).returns never
      exact ⟨r,ran⟩
    · intro addr
      obtain ⟨r,_,ran,rfl,_⟩ := (fetchstr_meets ⟨d,sz⟩ addr low).returns never
      exact ⟨r,ran⟩
    · intro esp n
      obtain ⟨r,_,ran,rfl,_⟩ := (argstr_meets ⟨d,sz⟩ esp n low).returns never
      exact ⟨r,ran⟩

/-- The first process passes its last word. -/
theorem pointers_inside_first_process : Size linked pgSize ∧ ∃ s w s', fetchint ⟨0x1000000,pgSize⟩ 4092 s = .ok (some w,s') ∧
    (4092 : UInt32).toNat + 4 ≤ pgSize.toNat := by
  have seen : probe (fetchint ⟨0x1000000,pgSize⟩ 4092) ⟨onePage,[]⟩ (fun r _ => r) = some 0 := by decide +kernel
  obtain ⟨r,s',ran,is⟩ := probe_eq_some seen
  exact ⟨.userinit,_,0,s',is ▸ ran,(pointers_inside linked pgSize .userinit 0x1000000 ⟨onePage,[]⟩).1 4092 0 s' (is ▸ ran)⟩

end Xv6Ext2.Vm
