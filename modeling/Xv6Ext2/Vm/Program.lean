import Xv6Ext2.Vm.Commit
import Xv6Ext2.Vm.Fork

/-! What a call of `exec` leaves behind, for any file and any arguments: the arguments on the stack of the new image, or
everything as it was. -/
namespace Xv6Ext2.Vm
open Lib Bio Function
open Vfs (Ref)

variable {k : Linked} {s s' : Machine} {d : UInt32} {others : Set UInt32}

/-- An executable file with one program header: four bytes, loaded to address 0 and followed by four bytes of zeros. -/
def programBytes (i : Nat) : UInt8 :=
  if i < 4 then leByte elfMagic.toNat i
  else if i = 28 then 52
  else if i = 44 ∨ i = 52 then 1
  else if i = 56 then 84
  else if i = 68 then 4
  else if i = 72 then 8
  else 0

/-- Every path names this file. -/
def programFile : Files Unit :=
  ⟨fun _ => pure (some ⟨.rootdev,5⟩),fun _ off n => pure ⟨n,n.toNat,fun i => programBytes (off.toNat + i)⟩⟩

theorem programFile_elf : Elfhdr.ofBytes (fun i => programBytes ((0 : UInt32).toNat + i)) = ⟨elfMagic,0,52,1⟩ := by decide

theorem programFile_header : Proghdr.ofBytes (fun i => programBytes ((52 : UInt32).toNat + i)) = ⟨elfProgLoad,84,0,4,8⟩ := by decide

theorem programFile_whole : ¬programFile.Short := by
  rintro ⟨ip,off,n,s,got,s',ran,less⟩
  cases ran
  exact less rfl

theorem programFile_faultless (e : Fault) : ¬programFile.Faults e := by
  rintro (⟨path,s,ran⟩ | ⟨ip,off,n,s,ran⟩)
  · cases ran
  · cases ran

theorem loadImage_program (K : Kernel Unit) (ip : Ref) (loaded : Loaded k s K.vm d others 0) (many : 2 ≤ K.vm.free.length) :
    ∃ K', loadImage k programFile d ip 1 52 0 K = .ok (some 8,K') ∧ Loaded k s K'.vm d others 8 ∧ K'.rest = K.rest ∧
      K.vm.free.length ≤ K'.vm.free.length + 2 := by
  have old : pages 0 = 0 := rfl
  have new : pages 8 = 1 := rfl
  have most := demand_le_double K.vm.mem d (pages 0) (pages 8)
  obtain ⟨r,s₁,grown,sep,result⟩ := (allocuvm_meets loaded.sep (by decide : (0 : UInt32).toNat ≤ (8 : UInt32).toNat) (by decide)
    loaded.clear).returns fun _ never => never
  rcases result with ⟨is,filled,spent⟩ | ⟨_,_,few⟩
  · have loaded₁ : Loaded k s ({K with vm := s₁} : Kernel Unit).vm d others 8 := loaded.filled (by decide) (by decide) sep filled
    obtain ⟨r₂,K₂,ran,scribbled,rest,less⟩ := (loaduvm_meets programFile ip 84 loaded₁ (by decide : (0 : UInt32).toNat % 4096 = 0)
      (by decide : (0 : UInt32).toNat + (4 : UInt32).toNat ≤ (8 : UInt32).toNat)).returns fun e fault => programFile_faultless e fault
    have whole : ¬r₂ < 0 := fun failed => programFile_whole (less failed)
    have count := spent.count
    have free : K₂.vm.free = s₁.free := scribbled.free
    rw [is] at grown
    refine ⟨K₂,?_,loaded₁.scribble scribbled,rest,by rw [free]; omega⟩
    rw [loadImage,bind_ok (rfl : readi programFile ip 52 32 K = .ok (⟨32,32,fun i => programBytes ((52 : UInt32).toNat + i)⟩,K)),
      if_neg (by decide),programFile_header]
    dsimp only
    rw [if_neg (by decide),if_neg (by decide),if_neg (by decide),bind_ok (onVm_run grown : onVm (allocuvm k d 0 (0 + 8)) K = _),
      if_neg (by decide),if_neg (by decide),bind_ok ran,if_neg whole]
    rfl
  · omega

/-- With enough memory `exec` of that file gets as far as the arguments. -/
theorem exec_program (K : Kernel Unit) (path : List UInt8) (old : Separate k K.vm K.proc.pgdir others) (unlocked : ∀ ip, K.locked ip = false)
    (many : 1032 ≤ K.vm.free.length) :
    ∃ d K', Stacked k K.vm K'.vm d (others ∪ ownedBy K.vm K.proc.pgdir) 12288 2 ∧ K'.rest = K.rest ∧
      ∀ argv, exec k programFile path argv K = enter k path argv d 12288 0 K' := by
  obtain ⟨r,s₁,made,result⟩ := (setupkvm_meets old.pool_owned).returns fun _ never => never
  rcases result with ⟨_,_,_,few⟩ | ⟨d,is,sep,kernel,empty,drawn⟩
  · omega
  · have loaded := Loaded.fresh sep kernel drawn empty
    have count : K.vm.free.length ≤ 1025 + 0 + s₁.free.length :=
      drawn.count old.nodup fun n low present => absurd present (empty n low)
    have named : namei programFile path {K with ops := K.ops + 1} = .ok (some ⟨.rootdev,5⟩,
        {K with ops := K.ops + 1, refs := update K.refs ⟨.rootdev,5⟩ (K.refs ⟨.rootdev,5⟩ + 1)}) := rfl
    generalize (⟨.rootdev,5⟩ : Ref) = ip at named
    have free := unlocked ip
    let K₁ : Kernel Unit := {K with ops := K.ops + 1, refs := update K.refs ip (K.refs ip + 1), locked := update K.locked ip true}
    have locked : ilock ip {K with ops := K.ops + 1, refs := update K.refs ip (K.refs ip + 1)} = .ok ((),K₁) := by
      rw [ilock,free]
      rfl
    obtain ⟨K₂,image,loaded₂,rest₂,count₂⟩ := loadImage_program {K₁ with vm := s₁} ip loaded (by dsimp only; omega)
    have held : K₂.rest = K.with ip := rest₂
    let K₃ : Kernel Unit := {K₂ with ops := K₂.ops - 1, locked := update K₂.locked ip false, refs := update K₂.refs ip (K₂.refs ip - 1)}
    have rest₃ : K₃.rest = K.rest := by
      obtain ⟨ops,more⟩ := Prod.mk.inj held
      obtain ⟨refs,more⟩ := Prod.mk.inj more
      obtain ⟨locks,proc⟩ := Prod.mk.inj more
      simp only [K₃,Kernel.rest,ops,refs,locks,proc,update_self,update_idem,Nat.add_sub_cancel,update_eq_self]
      rw [← free,update_eq_self]
    have two : pgRoundUp 8 + 2 * pgSize = 12288 := by decide
    obtain ⟨sz,s₄,grown,_,refused,granted⟩ := (allocStack_meets loaded₂ two).returns fun _ never => never
    have succeeded : sz ≠ 0 := by
      intro failed
      rcases refused failed with high | few
      · exact absurd high (by decide)
      · dsimp only at count₂
        omega
    obtain ⟨size,top,loaded₄,value,second,reach⟩ := granted succeeded
    rw [size] at loaded₄ value grown
    obtain rfl : top = 2 := by
      have bytes : (12288 : UInt32).toNat = 12288 := rfl
      omega
    obtain ⟨_,s₅,cleared,stacked⟩ := (clearGuard_meets loaded₄ value second reach).returns fun _ never => never
    refine ⟨d,{K₃ with vm := s₅},stacked,rest₃,?_⟩
    intro argv
    have one : (1 : UInt16).toNat = 1 := rfl
    have kvm : onVm (setupkvm k) K₁ = .ok (some d,{K₁ with vm := s₁}) := onVm_run (is ▸ made)
    rw [exec,bind_ok (rfl : beginOp K = .ok ((),{K with ops := K.ops + 1})),bind_ok named]
    dsimp only
    rw [bind_ok locked,bind_ok (rfl : readi programFile ip 0 52 K₁ = .ok (⟨52,52,fun i => programBytes ((0 : UInt32).toNat + i)⟩,K₁)),
      if_neg (by decide),programFile_elf,if_neg (by decide),bind_ok kvm]
    dsimp only
    rw [one,bind_ok image]
    dsimp only
    rw [bind_ok (rfl : iunlockput ip K₂ = .ok ((),{K₃ with ops := K₂.ops})),bind_ok (rfl : endOp {K₃ with ops := K₂.ops} = .ok ((),K₃)),two,
      bind_ok (onVm_run (K := K₃) grown),if_neg (by decide),bind_ok (onVm_run cleared : onVm (clearpteu d (12288 - 2 * pgSize)) {K₃ with vm := s₄} = _)]

section

variable {φ : Type}

/-- A call of `exec` that succeeds has the arguments on the stack. -/
theorem exec_arguments (k : Linked) (F : Files φ) (K K' : Kernel φ) (path : List UInt8) (argv : List (List UInt8)) (others : Set UInt32)
    (old : Separate k K.vm K.proc.pgdir others) (unlocked : ∀ ip, K.locked ip = false) (strings : ∀ a ∈ argv, a.length < 2147483648)
    (ran : exec k F path argv K = .ok (0,K')) :
    ∃ placed, ArgStack K'.vm.mem K'.proc.pgdir K'.proc.sz K'.proc.esp argv placed := by
  rcases (exec_meets F path argv strings old unlocked).result ran with ⟨failed,_⟩ | ⟨_,committed⟩
  · exact absurd failed (by decide)
  · exact committed.stack

end

/-- A process of one page, with nothing locked. -/
def soleKernel : Kernel Unit := ⟨oneProcess,(),0,fun _ => 0,fun _ => false,⟨0x1000000,4096,0,0,fun _ => 0⟩⟩

theorem soleKernel_enters (path : List UInt8) :
    ∃ d K', Stacked linked oneProcess K'.vm d (∅ ∪ ownedBy oneProcess 0x1000000) 12288 2 ∧ K'.rest = soleKernel.rest ∧
      ∀ argv, exec linked programFile path argv soleKernel = enter linked path argv d 12288 0 K' := by
  refine exec_program soleKernel path oneProcess_separate (fun _ => rfl) ?_
  have vm : soleKernel.vm = oneProcess := rfl
  rw [vm,oneProcess_free,freePages,List.length_map,List.length_range]
  decide

/-- A program of one segment is called with the arguments `ls` and `-l`. -/
theorem exec_arguments_two : ∃ K' : Kernel Unit, exec linked programFile [47,108,115] [[108,115],[45,108]] soleKernel = .ok (0,K') ∧
    ∃ placed, ArgStack K'.vm.mem K'.proc.pgdir K'.proc.sz K'.proc.esp [[108,115],[45,108]] placed := by
  have strings : ∀ a ∈ ([[108,115],[45,108]] : List (List UInt8)), a.length < 2147483648 := by decide
  obtain ⟨d,K₁,stacked,rest,run⟩ := soleKernel_enters [47,108,115]
  obtain ⟨r,K',entered,result⟩ := (enter_meets (K := soleKernel) [47,108,115] [[108,115],[45,108]] strings oneProcess_separate stacked rest 0).returns
    fun e wraps => by
      obtain ⟨_,a,member,long⟩ := wraps
      have short := (by decide : ∀ a ∈ ([[108,115],[45,108]] : List (List UInt8)), a.length < 33554432) a member
      omega
  rcases result with ⟨_,never,_⟩ | ⟨is,_,_⟩
  · exact absurd (by decide) never
  · have ran := (run [[108,115],[45,108]]).trans (is ▸ entered)
    exact ⟨K',ran,exec_arguments linked programFile soleKernel K' _ _ ∅ oneProcess_separate (fun _ => rfl) strings ran⟩

section

variable {φ : Type}

/-- The process, its files and every page that was in use are as they were, and the same pages are free. -/
structure Undone (K K' : Kernel φ) : Prop where
  proc : K'.proc = K.proc
  ops : K'.ops = K.ops
  refs : K'.refs = K.refs
  locked : K'.locked = K.locked
  once : K'.vm.free.Nodup
  free : ∀ f, f ∈ K'.vm.free ↔ f ∈ K.vm.free
  mem : ∀ g, g ∉ K.vm.free → K'.vm.mem g = K.vm.mem g

/-- A call of `exec` that fails changes nothing. Only the file layer stops it, or the trap in `copyout`. -/
theorem exec_undone (k : Linked) (F : Files φ) (K : Kernel φ) (path : List UInt8) (argv : List (List UInt8)) (others : Set UInt32)
    (old : Separate k K.vm K.proc.pgdir others) (unlocked : ∀ ip, K.locked ip = false) (strings : ∀ a ∈ argv, a.length < 2147483648) :
    (∀ e, exec k F path argv K = .error e → F.Faults e ∨ e = .dangling ∧ ∃ a ∈ argv, 33554432 ≤ a.length) ∧
      ∀ K', exec k F path argv K = .ok (-1,K') → Undone K K' := by
  have meets := exec_meets F path argv strings old unlocked
  refine ⟨?_,?_⟩
  · intro e stopped
    rw [Meets,stopped] at meets
    exact meets
  · intro K' ran
    rcases meets.result ran with ⟨_,abandoned⟩ | ⟨zero,_⟩
    · obtain ⟨ops,more⟩ := Prod.mk.inj abandoned.rest
      obtain ⟨refs,more⟩ := Prod.mk.inj more
      obtain ⟨locked,proc⟩ := Prod.mk.inj more
      exact ⟨proc,ops,refs,locked,abandoned.pool.nodup,abandoned.same.free,abandoned.same.mem⟩
    · exact absurd zero (by decide)

end

/-- With 33 arguments the program is loaded and has its stack before the call fails. -/
theorem exec_undone_many_arguments : ∃ K' : Kernel Unit,
    exec linked programFile [47,108,115] (List.replicate 33 []) soleKernel = .ok (-1,K') ∧ Undone soleKernel K' := by
  have short (a : List UInt8) (member : a ∈ List.replicate 33 []) : a.length = 0 := by
    rw [List.eq_of_mem_replicate member]
    rfl
  have strings (a : List UInt8) (member : a ∈ List.replicate 33 []) : a.length < 2147483648 := by
    rw [short a member]
    decide
  obtain ⟨d,K₁,stacked,rest,run⟩ := soleKernel_enters [47,108,115]
  obtain ⟨r,K',entered,result⟩ := (enter_meets (K := soleKernel) [47,108,115] _ strings oneProcess_separate stacked rest 0).returns
    fun e wraps => by
      obtain ⟨_,a,member,long⟩ := wraps
      rw [short a member] at long
      omega
  rcases result with ⟨is,_,_⟩ | ⟨_,fits,_⟩
  · have ran := (run _).trans (is ▸ entered)
    exact ⟨K',ran,(exec_undone linked programFile soleKernel _ _ ∅ oneProcess_separate (fun _ => rfl) strings).2 K' ran⟩
  · exact absurd fits.1 (by rw [List.length_replicate]; decide)

end Xv6Ext2.Vm
