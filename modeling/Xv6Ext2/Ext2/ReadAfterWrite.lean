import Xv6Ext2.Ext2.FileCalls

/-! Reading a file back after a run of writes. The pointers in an indirect block are stored in its
buffer only, so that a file survives exactly as long as no such buffer is recycled. -/
namespace Xv6Ext2.Ext2
open Lib Bio

structure OpenFile where
  ip : Inode
  dev : Dev
  written : Nat → UInt8

inductive Call where
  | write (off n : UInt32) (src : Nat → UInt8)
  | read (off n : UInt32) (dst : Nat → UInt8)

/-- One call on the file; a write counts if `ext2_writei` accepts it. -/
def Call.run (fs : Mount) (f : OpenFile) : Call → Except Fault OpenFile
  | .write off n src => do
    let ((ret,ip),dev) ← writei fs f.ip src off n f.dev
    return ⟨ip,dev,if ret = n then poke f.written off.toNat n.toNat src else f.written⟩
  | .read off n dst => do
    let ((_,_,ip),dev) ← readi fs f.ip dst off n f.dev
    return ⟨ip,dev,f.written⟩

/-- The call keeps the file within the direct and single-indirect blocks. -/
def Call.Near : Call → Prop
  | .write off n _ => off.toNat + n.toNat ≤ nearBlocks * bsize
  | .read _ _ _ => True

def runCalls (fs : Mount) (f : OpenFile) (calls : List Call) : Except Fault OpenFile :=
  calls.foldlM (fun f call => call.run fs f) f

structure Opened (fs : Mount) (f : OpenFile) : Prop where
  regular : f.ip.type = .file
  wf : Wf fs driverDepth f.ip (obs f.dev)
  near : f.ip.size.toNat ≤ nearBlocks * bsize
  written : f.written = content f.ip (obs f.dev)

def Solid (f : OpenFile) (x : Nat) : Prop := ptr f.ip (obs f.dev) (driverSlot (x / bsize)) ≠ 0

/-- `ext2_readi` returns the `n` bytes last written from `off` on. -/
def ReadsBack (fs : Mount) (f : OpenFile) (off n : UInt32) (dst : Nat → UInt8) : Prop :=
  ∃ ip' d', readi fs f.ip dst off n f.dev =
    .ok ((n,poke dst 0 n.toNat (fun j => f.written (off.toNat + j)),ip'),d')

structure Recorded (fs : Mount) (f₀ f : OpenFile) : Prop where
  regular : f.ip.type = .file
  wf : Wf fs driverDepth f.ip (obs f.dev)
  near : f.ip.size.toNat ≤ nearBlocks * bsize
  holds : ∀ x < nearBlocks * bsize, content f.ip (obs f.dev) x = f.written x
  solid : ∀ x < f.ip.size.toNat, (x < f₀.ip.size.toNat → Solid f₀ x) → Solid f x

section

variable {fs : Mount} {f₀ f f' : OpenFile}

theorem Opened.recorded (opened : Opened fs f) : Recorded fs f f where
  regular := opened.regular
  wf := opened.wf
  near := opened.near
  holds x _ := by rw [opened.written]
  solid _ inside first := first inside

theorem Recorded.not_dev (recorded : Recorded fs f₀ f) : f.ip.type ≠ .dev := by
  rw [recorded.regular]
  decide

theorem Recorded.read (careful : Careful fs.recycle) (recorded : Recorded fs f₀ f) {off n : UInt32}
    {dst : Nat → UInt8} (ran : Call.run fs f (.read off n dst) = .ok f') : Recorded fs f₀ f' := by
  rw [Call.run] at ran
  by_cases bad : f.ip.size.toNat < off.toNat ∨ 2 ^ 32 ≤ off.toNat + n.toNat
  · rw [readi_refused recorded.not_dev dst f.dev bad] at ran
    cases ran
    exact recorded
  · have reads := readi_meets careful recorded.wf recorded.not_dev (n := n) dst (show off.toNat ≤ _ by omega) (by omega)
    cases result : readi fs f.ip dst off n f.dev with
    | error e => rw [result] at ran; cases ran
    | ok r =>
      obtain ⟨-,-,read⟩ := reads.result result
      rw [result] at ran
      cases ran
      have inode := read.grown.inode
      refine ⟨?_,read.grown.wf,?_,?_,?_⟩
      · rw [inode]; exact recorded.regular
      · rw [inode]; exact recorded.near
      · intro x inside
        rw [read.grown.content_eq]
        exact recorded.holds x inside
      · intro x inside first
        rw [inode] at inside
        have before := recorded.solid x inside first
        rw [Solid,read.grown.keeps _ (driverSlot_leaf _).within before]
        exact before

private theorem Recorded.of_wrote (recorded : Recorded fs f₀ f) {off n : UInt32} {src : Nat → UInt8} {ip' : Inode}
    {o' : Obs} {d' : Dev} (wrote : Wrote fs f.ip ip' (obs f.dev) o' off.toNat n.toNat src)
    (near : off.toNat + n.toNat ≤ nearBlocks * bsize) (start : off.toNat ≤ f.ip.size.toNat) {final : Inode}
    (type : final.type = ip'.type) (wf : Wf fs driverDepth final (obs d'))
    (size : final.size.toNat = max f.ip.size.toNat (off.toNat + n.toNat))
    (content_eq : ∀ x, content final (obs d') x = content ip' o' x)
    (ptr_eq : ∀ σ : Place, σ.Within driverDepth → ptr final (obs d') σ = ptr ip' o' σ) :
    Recorded fs f₀ ⟨final,d',poke f.written off.toNat n.toNat src⟩ where
  regular := by
    dsimp only
    rw [type,wrote.evolved.inode]
    exact recorded.regular
  wf := wf
  near := by
    have before := recorded.near
    dsimp only
    omega
  holds x inside := by
    dsimp only
    rw [content_eq,wrote.overwritten near x inside,recorded.holds x inside,poke]
  solid x inside first := by
    have within := (driverSlot_leaf (x / bsize)).within
    dsimp only at inside
    rw [Solid]
    dsimp only
    rw [ptr_eq _ within]
    by_cases hit : off.toNat ≤ x ∧ x < off.toNat + n.toNat
    · exact wrote.mapped x hit.1 hit.2
    · have before := recorded.solid x (by omega) first
      rw [wrote.evolved.keeps _ within before]
      exact before

theorem Recorded.write (careful : Careful fs.recycle) (recorded : Recorded fs f₀ f) {off n : UInt32}
    {src : Nat → UInt8} (near : off.toNat + n.toNat ≤ nearBlocks * bsize)
    (ran : Call.run fs f (.write off n src) = .ok f') : Recorded fs f₀ f' := by
  have small := near
  rw [nearBytes_eq] at small
  rw [Call.run] at ran
  by_cases behind : f.ip.size.toNat < off.toNat
  · have short : ¬minusOne = n := by
      rintro rfl
      have value : minusOne.toNat = 4294967295 := by decide
      omega
    rw [writei_refused recorded.not_dev src f.dev (.inl behind)] at ran
    cases ran
    rw [if_neg short]
    exact recorded
  · have writes := writei_meets careful recorded.wf recorded.not_dev (n := n) src (show off.toNat ≤ _ by omega)
      (by rw [maxFileBytes_toNat]; omega)
    cases result : writei fs f.ip src off n f.dev with
    | error e => rw [result] at ran; cases ran
    | ok r =>
      obtain ⟨⟨ret,final⟩,d'⟩ := r
      obtain ⟨accepted,ip₁,o₁,wrote,after⟩ := writes.result result
      dsimp only at accepted after
      rw [result,accepted] at ran
      cases ran
      rw [if_pos rfl]
      have size₁ : ip₁.size = f.ip.size := by rw [wrote.evolved.inode]
      split_ifs at after with grows
      · obtain ⟨rfl,stored⟩ := after
        have wf₁ : Wf fs driverDepth {ip₁ with size := off + n} o₁ := wrote.evolved.wf.retag rfl rfl
        refine recorded.of_wrote wrote near (by omega) rfl (by rw [stored]; exact wf₁.saved) ?_ ?_ ?_
        · dsimp only
          rw [UInt32.toNat_add,Nat.mod_eq_of_lt (by omega)]
          omega
        · intro x
          rw [stored,content_saved wf₁]
          rfl
        · intro σ within
          rw [stored,ptr_saved wf₁ σ within]
          rfl
      · obtain ⟨rfl,rfl⟩ := after
        exact recorded.of_wrote wrote near (by omega) rfl wrote.evolved.wf (by rw [size₁]; omega) (fun _ => rfl)
          (fun _ _ => rfl)

theorem Recorded.run (careful : Careful fs.recycle) {calls : List Call} (recorded : Recorded fs f₀ f)
    (near : ∀ call ∈ calls, call.Near) (ran : runCalls fs f calls = .ok f') : Recorded fs f₀ f' := by
  induction calls generalizing f with
  | nil =>
    cases ran
    exact recorded
  | cons call calls ih =>
    rw [runCalls,List.foldlM_cons] at ran
    cases first : call.run fs f with
    | error e => rw [first] at ran; cases ran
    | ok f₁ =>
      rw [first] at ran
      have step : Recorded fs f₀ f₁ := by
        cases call with
        | write off n src => exact recorded.write careful (near _ (List.mem_cons_self ..)) first
        | read off n dst => exact recorded.read careful first
      exact ih step (fun later member => near later (List.mem_cons_of_mem _ member)) ran

/-- In every run of accepted writes and of reads, each read returns the bytes last written, provided
that no buffer is recycled before its bytes are on disk. Only a hole of the file that was opened may
be read without having been written. -/
theorem read_returns_last_written (careful : Careful fs.recycle) (opened : Opened fs f₀) {calls : List Call}
    (near : ∀ call ∈ calls, call.Near) (ran : runCalls fs f₀ calls = .ok f) {off n : UInt32}
    (inside : off.toNat + n.toNat ≤ f.ip.size.toNat)
    (solid : ∀ x, off.toNat ≤ x → x < off.toNat + n.toNat → x < f₀.ip.size.toNat → Solid f₀ x)
    (dst : Nat → UInt8) : ReadsBack fs f off n dst := by
  have recorded := opened.recorded.run careful near ran
  have limit := recorded.near
  rw [nearBytes_eq] at limit
  have reads := readi_meets careful recorded.wf recorded.not_dev (n := n) dst (show off.toNat ≤ _ by omega) (by omega)
  obtain ⟨⟨ret,out,ip'⟩,d',result,count,copied,-⟩ := reads.returns (by
    rintro e ⟨x,lower,upper,-,⟨empty,-⟩ | far⟩
    · exact recorded.solid x (by omega) (solid x lower upper) empty
    · have blocks : driverBlocks = 262668 := by decide
      rw [blocks,Nat.le_div_iff_mul_le (by decide)] at far
      simp only [bsize] at far
      omega)
  dsimp only at count copied
  have whole : ret = n := UInt32.toNat_inj.mp (by omega)
  refine ⟨ip',d',?_⟩
  rw [result,copied,whole]
  congr 4
  funext i
  simp only [poke]
  split_ifs with hit
  · exact recorded.holds _ (by rw [nearBytes_eq]; omega)
  · rfl

end

/-- A file of twelve blocks on the bare image, none of them allocated yet. -/
def sparseFile : OpenFile :=
  ⟨{newInode 1 .file with size := 24576},cold bare,
    content {newInode 1 .file with size := 24576} (obs (cold bare))⟩

theorem sparseFile_opened (recycle : Dev → Blockno → Bool) : Opened (bareMount recycle) sparseFile where
  regular := rfl
  wf := (bare_wf recycle driverDepth .file).retag rfl rfl
  near := by decide
  written := rfl

private theorem sparse_run (fs : Mount) (ret : UInt32)
    (size : ((runCalls fs sparseFile [.write 24576 1 (fun _ => 7)]).toOption.map fun f => f.ip.size) = some ret) :
    ∃ f, runCalls fs sparseFile [.write 24576 1 (fun _ => 7)] = .ok f ∧ f.ip.size = ret := by
  cases ran : runCalls fs sparseFile [.write 24576 1 (fun _ => 7)] with
  | error e => rw [ran] at size; cases size
  | ok f => rw [ran] at size; exact ⟨f,rfl,Option.some.inj size⟩

/-- The first indirect block of a file is allocated, filled and read back. -/
theorem read_returns_indirect_byte :
    ∃ f, runCalls stillMount sparseFile [.write 24576 1 (fun _ => 7)] = .ok f ∧
      ReadsBack stillMount f 24576 1 (fun _ => 0) := by
  obtain ⟨f,ran,size⟩ := sparse_run stillMount 24577 (by decide +kernel)
  refine ⟨f,ran,read_returns_last_written never_careful (sparseFile_opened _) ?_ ran ?_ ?_ _⟩
  · intro call member
    rw [List.mem_singleton.mp member]
    exact show 24577 ≤ nearBlocks * bsize by decide
  · rw [size]
    decide
  · intro x lower _ inside
    exact absurd inside (Nat.not_lt.mpr lower)

/-- The buffer of the new indirect block is clean and released, and once it is recycled the block that
was written is lost: reading allocates another one. -/
theorem recycled_indirect_block_loses_byte :
    Opened (bareMount fun _ _ => true) sparseFile ∧ Call.Near (.write 24576 1 (fun _ => 7)) ∧
      ∃ f, runCalls (bareMount fun _ _ => true) sparseFile [.write 24576 1 (fun _ => 7)] = .ok f ∧
        f.ip.size = 24577 ∧ ¬ReadsBack (bareMount fun _ _ => true) f 24576 1 (fun _ => 0) := by
  obtain ⟨f,ran,size⟩ := sparse_run (bareMount fun _ _ => true) 24577 (by decide +kernel)
  refine ⟨sparseFile_opened _,show 24577 ≤ nearBlocks * bsize by decide,f,ran,size,?_⟩
  rintro ⟨ip',d',read⟩
  have outcome : ((runCalls (bareMount fun _ _ => true) sparseFile [.write 24576 1 (fun _ => 7)]).toOption.map
      fun f => (f.written 24576,(readi (bareMount fun _ _ => true) f.ip (fun _ => 0) 24576 1 f.dev).toOption.map
        fun r => r.1.2.1 0)) = some (7,some 0) := by decide +kernel
  rw [ran] at outcome
  obtain ⟨wrote,found⟩ := Prod.mk.inj (Option.some.inj outcome)
  rw [read] at found
  have same : f.written 24576 = 0 := Option.some.inj found
  rw [wrote] at same
  exact absurd same (by decide)

end Xv6Ext2.Ext2
