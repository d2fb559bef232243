import Xv6Ext2.Vm.Stack

/-! `exec` as a whole: it commits an image with its arguments on the stack, or it undoes what it did. -/
namespace Xv6Ext2.Vm
open Lib Bio Function
open Vfs (Ref)

variable {k : Linked} {s s' s'' : Machine} {d f sz : UInt32} {others : Set UInt32} {n top : Nat}

theorem pteAddr_cleared (w : UInt32) : pteAddr (w &&& ~~~pteU) = pteAddr w := by
  have mask : ~~~pteU &&& ~~~0xFFF = ~~~0xFFF := by decide
  rw [pteAddr,pteAddr,UInt32.and_assoc,mask]

theorem present_cleared (w : UInt32) : Present (w &&& ~~~pteU) ↔ Present w := by
  have mask : ~~~pteU &&& pteP = pteP := by decide
  rw [Present,Present,UInt32.and_assoc,mask]

theorem not_user_cleared (w : UInt32) : ¬User (w &&& ~~~pteU) := by
  have mask : ~~~pteU &&& pteU = 0 := by decide
  rw [User,UInt32.and_assoc,mask,UInt32.and_zero]
  exact not_not.mpr rfl

theorem clearpteu_meets (loaded : Loaded k s s' d others sz) {va : UInt32} (page : va.toNat = 4096 * n) (mapped : n < pages sz) :
    Meets (clearpteu d va) s'
      (fun _ s'' => Loaded k s s'' d others sz ∧ ∀ n' < 1048576, pte s''.mem d n' = if n' = n then pte s'.mem d n &&& ~~~pteU else pte s'.mem d n') fun _ => False := by
  have low : n < 524288 := by
    have bound := pages_le loaded.low
    omega
  have present := (loaded.exact n low).mpr mapped
  have owned : Owns s'.mem d (.user n) (pteAddr (pte s'.mem d n)) := ⟨low,present,rfl⟩
  have number : va.toNat / 4096 = n := by omega
  obtain ⟨t,there⟩ := present_table present
  have walked : walkpgdir d va false s' = .ok (some ⟨t,n % 1024⟩,s') := by
    rw [← number] at there ⊢
    exact walk_present there false
  have read : word t (n % 1024) s' = .ok (pte s'.mem d n,s') := by
    rw [pte_table there]
    rfl
  generalize entry : pte s'.mem d n = w at *
  have entries (n' : Nat) (inside : n' < 1048576) :
      pte (stored s'.mem t n (w &&& ~~~pteU)) d n' = if n' = n then w &&& ~~~pteU else pte s'.mem d n' :=
    loaded.sep.pte_stored there (by omega) inside
  have sep : Separate k {s' with mem := stored s'.mem t n (w &&& ~~~pteU)} d others := by
    refine loaded.sep.store there (by omega) (fun r g _ mine => loaded.sep.own r g mine) loaded.sep.freeOwn ?_
    intro _ _
    rw [pteAddr_cleared]
    refine ⟨loaded.sep.taken _ _ owned,loaded.sep.own _ _ owned,loaded.sep.frame _ _ owned,?_⟩
    intro r other mine
    exact other (loaded.sep.apart r (.user n) _ mine owned)
  have users (n' : Nat) (g : UInt32) : Owns (stored s'.mem t n (w &&& ~~~pteU)) d (.user n') g ↔ Owns s'.mem d (.user n') g := by
    by_cases inside : n' < 524288
    · rw [Owns,Owns,entries n' (by omega)]
      by_cases here : n' = n
      · rw [if_pos here,present_cleared,pteAddr_cleared,here,entry]
      · rw [if_neg here]
    · simp only [Owns,inside,false_and]
  have conserves : Conserves s' {s' with mem := stored s'.mem t n (w &&& ~~~pteU)} d ∅ ∅ := by
    refine (Grown.store loaded.sep there (by omega) _).conserves (fun _ never => never.elim) ?_
    intro g
    simp only [users]
    exact ⟨.inr,fun either => either.resolve_left fun never => never⟩
  have image : Loaded k s {s' with mem := stored s'.mem t n (w &&& ~~~pteU)} d others sz := by
    refine ⟨sep,?_,loaded.drawn.trans conserves,?_,loaded.low⟩
    · exact loaded.kernel.congr fun n' above inside => (entries n' inside).trans (if_neg (by omega))
    · intro n' inside
      rw [entries n' (by omega)]
      by_cases here : n' = n
      · rw [if_pos here,present_cleared,here]
        exact ⟨fun _ => mapped,fun _ => present⟩
      · rw [if_neg here]
        exact loaded.exact n' inside
  exact .step walked (.step read (.of_ok rfl ⟨image,entries⟩))

theorem user_entry {f : UInt32} (aligned : f.toNat % 4096 = 0) : User (f ||| (pteW ||| pteU) ||| pteP) := by
  have flags : ((pteW ||| pteU) ||| pteP).toNat = 7 := rfl
  rw [user_iff,toNat_entry aligned (by decide),flags]
  omega

theorem allocStack_meets (loaded : Loaded k s s' d others sz) {newsz : UInt32} (two : pgRoundUp sz + 2 * pgSize = newsz) :
    Meets (allocuvm k d (pgRoundUp sz) newsz) s'
      (fun r s'' => Holding k s s'' d others ∧
        (r = 0 → newsz ≥ kernBase ∨ s'.free.length < 4) ∧ (r ≠ 0 → r = newsz ∧
          ∃ top, Loaded k s s'' d others r ∧ r.toNat = 4096 * (top + 1) ∧ 1 ≤ top ∧ Reach s''.mem d top)) fun _ => False := by
  have base : kernBase.toNat = 2147483648 := rfl
  have low := loaded.low
  have bound := pages_le low
  have rounded : (pgRoundUp sz).toNat = 4096 * pages sz := pgRoundUp_page low.le
  have stop : newsz.toNat = 4096 * (pages sz + 2) := by
    have size : (2 * pgSize).toNat = 8192 := rfl
    rw [← two,UInt32.toNat_add,rounded,size]
    omega
  by_cases high : newsz ≥ kernBase
  · rw [allocuvm,if_pos high]
    exact .pure_intro ⟨loaded.holding,fun _ => .inl high,fun no => absurd rfl no⟩
  · rw [ge_iff_le,UInt32.le_iff_toNat_le,base] at high
    have old : pages (pgRoundUp sz) = pages sz := by
      rw [pages,rounded]
      omega
    have new : pages newsz = pages sz + 2 := by
      rw [pages,stop]
      omega
    have loaded' : Loaded k s s' d others (pgRoundUp sz) := by
      refine ⟨loaded.sep,loaded.kernel,loaded.drawn,?_,by omega⟩
      rw [old]
      exact loaded.exact
    refine (allocuvm_meets loaded.sep (by omega) (by omega) loaded'.clear).mono ?_ fun _ never => never
    intro r s'' after
    obtain ⟨sep,result⟩ := after
    rcases result with ⟨is,filled,_⟩ | ⟨is,restored,few⟩
    · have image := loaded'.filled (by omega) (by omega) sep filled
      have some : newsz ≠ 0 := by
        intro zero
        have nothing : newsz.toNat = 0 := by rw [zero]; rfl
        omega
      rw [is]
      refine ⟨image.holding,fun zero => absurd zero some,fun _ => ⟨rfl,pages sz + 1,image,stop,by omega,?_⟩⟩
      obtain ⟨f,free,entry,_⟩ := filled.new (pages sz + 1) (by omega) (by omega)
      rw [Reach,entry]
      exact ⟨present_entry _ _,user_entry (loaded.sep.freeFrame f free).aligned⟩
    · have most := demand_le_double s'.mem d (pages (pgRoundUp sz)) (pages newsz)
      exact ⟨⟨sep,loaded.drawn.trans restored.conserves⟩,fun _ => .inr (by omega),fun no => absurd is no⟩

theorem clearGuard_meets (loaded : Loaded k s s' d others sz) (size : sz.toNat = 4096 * (top + 1)) (second : 1 ≤ top)
    (reach : Reach s'.mem d top) :
    Meets (clearpteu d (sz - 2 * pgSize)) s'
      (fun _ s'' => Stacked k s s'' d others sz top) fun _ => False := by
  have low := loaded.low
  have page : (sz - 2 * pgSize).toNat = 4096 * (top - 1) := by
    have two : (2 * pgSize).toNat = 8192 := rfl
    rw [UInt32.toNat_sub,two]
    omega
  have mapped : top - 1 < pages sz := by
    rw [pages]
    omega
  refine (clearpteu_meets loaded page mapped).mono ?_ fun _ never => never
  intro _ s'' after
  obtain ⟨image,entries⟩ := after
  refine ⟨image,size,second,?_,?_⟩
  · rw [Reach,entries top (by omega),if_neg (by omega)]
    exact reach
  · rw [entries (top - 1) (by omega),if_pos rfl]
    exact not_user_cleared _

def ownedBy (s : Machine) (p : UInt32) : Set UInt32 := {f | ∃ r, Owns s.mem p r f}

theorem Separate.aside {p : UInt32} (old : Separate k s p others) (drawn : Drawn s s' d ∅) (sep : Separate k s' d (others ∪ ownedBy s p)) :
    Separate k s' p (others ∪ ownedBy s' d) := by
  have tables (g : UInt32) (inside : InTables s.mem p g) : s'.mem g = s.mem g := drawn.mem g (old.inTables_free inside)
  have mine (r : Role) (f : UInt32) (owned : Owns s'.mem p r f) : Owns s.mem p r f := (owns_congr tables r).mp owned
  have was (f : UInt32) (free : f ∈ s'.free) : f ∈ s.free := (drawn.has f).mp (.inl free)
  refine ⟨?_,?_,?_,?_,sep.nodup,sep.freeFrame,?_⟩
  · intro r r' f owned owned'
    exact old.apart r r' f (mine r f owned) (mine r' f owned')
  · intro r f owned free
    exact old.taken r f (mine r f owned) (was f free)
  · rintro r f owned (other | ⟨r',also⟩)
    · exact old.own r f (mine r f owned) other
    · exact sep.own r' f also (.inr ⟨r,mine r f owned⟩)
  · intro r f owned
    exact old.frame r f (mine r f owned)
  · rintro f free (other | ⟨r',also⟩)
    · exact old.freeOwn f (was f free) other
    · exact sep.taken r' f also free

theorem Separate.pool_owned (old : Separate k s d others) : Pool k s (others ∪ ownedBy s d) := by
  refine ⟨old.nodup,old.freeFrame,?_⟩
  rintro f free (other | ⟨r,owned⟩)
  · exact old.freeOwn f free other
  · exact old.taken r f owned free

theorem Separate.survives {p : UInt32} (sep : Separate k s d (others ∪ ownedBy s p)) (pool : Pool k s' (others ∪ ownedBy s d))
    (freed : Freed s s' p) : Separate k s' d others ∧ ∀ r f, Owns s.mem d r f → s'.mem f = s.mem f := by
  have same (r : Role) (f : UInt32) (owned : Owns s.mem d r f) : s'.mem f = s.mem f := by
    apply freed.mem
    rintro (free | never | ⟨r',also⟩)
    · exact sep.taken r f owned free
    · exact never.elim
    · exact sep.own r f owned (.inr ⟨r',also⟩)
  have tables (g : UInt32) (inside : InTables s.mem d g) : s'.mem g = s.mem g := by
    obtain ⟨r,_,owned⟩ := inside.owned
    exact same r g owned
  have mine (r : Role) (f : UInt32) (owned : Owns s'.mem d r f) : Owns s.mem d r f := (owns_congr tables r).mp owned
  refine ⟨⟨?_,?_,?_,?_,pool.nodup,pool.frame,fun f free other => pool.own f free (.inl other)⟩,same⟩
  · intro r r' f owned owned'
    exact sep.apart r r' f (mine r f owned) (mine r' f owned')
  · intro r f owned free
    exact pool.own f free (.inr ⟨r,mine r f owned⟩)
  · intro r f owned other
    exact sep.own r f (mine r f owned) (.inl other)
  · intro r f owned
    exact sep.frame r f (mine r f owned)

theorem ArgStack.congr {m : Memory} {esp : UInt32} {argv : List (List UInt8)} {placed : List (UInt32 × List UInt8)}
    (stack : ArgStack s.mem d sz esp argv placed) (low : sz.toNat < 2147483648) (same : ∀ r f, Owns s.mem d r f → m f = s.mem f) :
    ArgStack m d sz esp argv placed := by
  have inside := stack.inside
  have tables (g : UInt32) (inside : InTables s.mem d g) : m g = s.mem g := by
    obtain ⟨r,_,owned⟩ := inside.owned
    exact same r g owned
  have reaches (n : Nat) (small : n < 524288) : Reach m d n ↔ Reach s.mem d n := by
    rw [Reach,Reach,pte_congr (by omega) tables]
  have page (n : Nat) (small : n < 524288) (reach : Reach s.mem d n) : m (pteAddr (pte m d n)) = s.mem (pteAddr (pte s.mem d n)) := by
    rw [pte_congr (by omega) tables]
    exact same (.user n) _ ⟨small,reach.1,rfl⟩
  have words (va : Nat) (small : va < 2147483648) : loadWord m d va = loadWord s.mem d va := by
    by_cases reach : Reach s.mem d (va / 4096)
    · simp only [loadWord,reaches (va / 4096) (by omega),page (va / 4096) (by omega) reach]
    · simp only [loadWord,reaches (va / 4096) (by omega),reach,false_and,if_false]
  have bytes (va : Nat) (small : va < 2147483648) : load m d va = load s.mem d va := by
    by_cases reach : Reach s.mem d (va / 4096)
    · simp only [load,reaches (va / 4096) (by omega),page (va / 4096) (by omega) reach]
    · simp only [load,reaches (va / 4096) (by omega),reach,if_false]
  have size := stack.size
  refine ⟨stack.args,?_,?_,?_,?_,?_,stack.apart,stack.above,stack.below,inside,stack.aligned,stack.size,?_⟩
  · rw [words _ (by omega)]
    exact stack.argc
  · rw [words _ (by omega)]
    exact stack.vector
  · intro i a here
    have few : i < argv.length := by
      obtain ⟨bound,_⟩ := List.getElem?_eq_some_iff.mp here
      rw [← stack.args,List.length_map]
      exact bound
    rw [words _ (by omega)]
    exact stack.pointers i a here
  · rw [words _ (by omega)]
    exact stack.null
  · intro a member j last
    have below := stack.below a member
    rw [bytes _ (by omega)]
    exact stack.strings a member j last
  · rw [reaches _ (by omega)]
    exact stack.guard

section

variable {φ : Type} {K K' : Kernel φ}

def Kernel.with (K : Kernel φ) (ip : Ref) : Nat × (Ref → Nat) × (Ref → Bool) × Process :=
  (K.ops + 1,update K.refs ip (K.refs ip + 1),update K.locked ip true,K.proc)

theorem leave_meets {α : Type} {ip : Ref} (free : K.locked ip = false) (held : K'.rest = K.with ip) {next : X φ α}
    {post : α → Kernel φ → Prop} {fail : Fault → Prop}
    (rest : ∀ K'', K''.rest = K.rest → K''.vm = K'.vm → Meets next K'' post fail) :
    Meets (do iunlockput ip; endOp; next) K' post fail := by
  obtain ⟨ops,more⟩ := Prod.mk.inj held
  obtain ⟨refs,more⟩ := Prod.mk.inj more
  obtain ⟨locked,proc⟩ := Prod.mk.inj more
  refine .step rfl (.step rfl (rest _ ?_ rfl))
  simp only [Kernel.rest,ops,refs,locked,proc,update_self,update_idem,Nat.add_sub_cancel,update_eq_self]
  rw [← free,update_eq_self]

/-- What is left of a call of `exec` that failed: the process and its files are as they were, and the same pages are free. -/
structure Abandoned (k : Linked) (K K' : Kernel φ) (others : Set UInt32) : Prop where
  rest : K'.rest = K.rest
  pool : Pool k K'.vm others
  same : Same K.vm K'.vm

theorem bad_early {ip : Ref} (free : K.locked ip = false) (held : K'.rest = K.with ip) (pages : Pool k K'.vm others) (same : Same K.vm K'.vm) (fail : Fault → Prop) :
    Meets (bad k none (some ip)) K' (fun r K'' => r = -1 ∧ Abandoned k K K'' others) fail := by
  refine leave_meets free held ?_
  intro K'' rest vm
  refine .pure_intro ⟨rfl,rest,?_,?_⟩
  · rw [vm]
    exact pages
  · rw [vm]
    exact same

theorem bad_loading {ip : Ref} (free : K.locked ip = false) (held : K'.rest = K.with ip) (holding : Holding k K.vm K'.vm d others)
    (fail : Fault → Prop) : Meets (bad k (some d) (some ip)) K' (fun r K'' => r = -1 ∧ Abandoned k K K'' others) fail := by
  refine (onVm_quiet ((freevm_meets holding.sep).excuse fun _ never => never.elim)).bind ?_
  intro _ K₁ after
  obtain ⟨⟨pool,freed⟩,rest⟩ := after
  refine leave_meets free (rest.trans held) ?_
  intro K₂ rest₂ vm
  refine .pure_intro ⟨rfl,rest₂,?_,?_⟩
  · rw [vm]
    exact pool
  · rw [vm]
    exact holding.drawn.freed freed

theorem bad_late (rest : K'.rest = K.rest) (holding : Holding k K.vm K'.vm d others) (fail : Fault → Prop) :
    Meets (bad k (some d) none) K' (fun r K'' => r = -1 ∧ Abandoned k K K'' others) fail := by
  refine (onVm_quiet ((freevm_meets holding.sep).excuse fun _ never => never.elim)).bind ?_
  intro _ K₁ after
  obtain ⟨⟨pool,freed⟩,quiet⟩ := after
  exact .pure_intro ⟨rfl,quiet.trans rest,pool,holding.drawn.freed freed⟩

/-- What a call of `exec` that returns 0 has done. -/
structure Committed (k : Linked) (K K' : Kernel φ) (others : Set UInt32) (argv : List (List UInt8)) : Prop where
  ops : K'.ops = K.ops
  refs : K'.refs = K.refs
  locked : K'.locked = K.locked
  sep : Separate k K'.vm K'.proc.pgdir others
  low : K'.proc.sz.toNat < 2147483648
  stack : ∃ placed, ArgStack K'.vm.mem K'.proc.pgdir K'.proc.sz K'.proc.esp argv placed

theorem commit_meets {argv : List (List UInt8)} (path : List UInt8) {eip esp : UInt32} (old : Separate k K.vm K.proc.pgdir others)
    (rest : K'.rest = K.rest) (loaded : Loaded k K.vm K'.vm d (others ∪ ownedBy K.vm K.proc.pgdir) sz)
    (stack : ∃ placed, ArgStack K'.vm.mem d sz esp argv placed) (fail : Fault → Prop) :
    Meets (commit k path d sz eip esp) K' (fun r K'' => r = 0 ∧ Committed k K K'' others argv) fail := by
  obtain ⟨ops,more⟩ := Prod.mk.inj rest
  obtain ⟨refs,more⟩ := Prod.mk.inj more
  obtain ⟨locked,proc⟩ := Prod.mk.inj more
  have aside := old.aside loaded.drawn loaded.sep
  have standing : ownedBy K'.vm K.proc.pgdir = ownedBy K.vm K.proc.pgdir := by
    have tables (g : UInt32) (inside : InTables K.vm.mem K.proc.pgdir g) : K'.vm.mem g = K.vm.mem g :=
      loaded.drawn.mem g (old.inTables_free inside)
    ext f
    exact exists_congr fun r => owns_congr tables r
  rw [commit]
  refine .step (a := K'.proc) (t := K') rfl (.step rfl ?_)
  rw [proc]
  generalize image : Process.mk d sz eip esp _ = new
  have freeing : Meets (onVm (freevm k K.proc.pgdir)) {K' with proc := new} _ fail :=
    onVm_quiet ((freevm_meets aside).excuse fun _ never => never.elim)
  refine freeing.bind ?_
  intro _ K₂ after
  obtain ⟨⟨pool,freed⟩,quiet⟩ := after
  obtain ⟨sep,same⟩ := (standing.symm ▸ loaded.sep).survives pool freed
  obtain ⟨ops₂,more⟩ := Prod.mk.inj quiet
  obtain ⟨refs₂,more⟩ := Prod.mk.inj more
  obtain ⟨locked₂,proc₂⟩ := Prod.mk.inj more
  obtain ⟨placed,stack⟩ := stack
  refine .pure_intro ⟨rfl,ops₂.trans ops,refs₂.trans refs,locked₂.trans locked,?_,?_,placed,?_⟩
  · rw [proc₂,← image]
    exact sep
  · rw [proc₂,← image]
    exact loaded.low
  · rw [proc₂,← image]
    exact stack.congr loaded.low same

theorem enter_meets (path : List UInt8) (argv : List (List UInt8)) (strings : ∀ a ∈ argv, a.length < 2147483648)
    (old : Separate k K.vm K.proc.pgdir others) (stacked : Stacked k K.vm K'.vm d (others ∪ ownedBy K.vm K.proc.pgdir) sz top)
    (rest : K'.rest = K.rest) (eip : UInt32) :
    Meets (enter k path argv d sz eip) K'
      (fun r K'' => r = -1 ∧ ¬Fits argv ∧ Abandoned k K K'' (others ∪ ownedBy K.vm K.proc.pgdir) ∨
        r = 0 ∧ Fits argv ∧ Committed k K K'' others argv) (Wraps argv) := by
  refine (onVm_quiet (pushStack_meets argv strings stacked)).bind ?_
  intro r K₁ after
  obtain ⟨⟨scribbled,fits,pushed⟩,quiet⟩ := after
  have loaded := stacked.loaded.scribble scribbled
  cases r with
  | none =>
    refine (bad_late (quiet.trans rest) loaded.holding _).mono ?_ fun _ => id
    intro r K₂ failed
    exact .inl ⟨failed.1,fun enough => fits.mpr enough rfl,failed.2⟩
  | some esp =>
    refine (commit_meets path old (quiet.trans rest) loaded (pushed esp rfl) _).mono ?_ fun _ => id
    intro r K₂ done
    exact .inr ⟨done.1,fits.mp (Option.some_ne_none esp),done.2⟩

theorem namei_meets (F : Files φ) (path : List UInt8) :
    Meets (namei F path) K (fun r K' => K'.vm = K.vm ∧ K'.ops = K.ops ∧ K'.locked = K.locked ∧ K'.proc = K.proc ∧
      K'.refs = r.elim K.refs fun ip => update K.refs ip (K.refs ip + 1)) F.Faults := by
  rw [namei]
  cases ran : F.namei path K.files with
  | error e => exact .stop (by rw [onFiles,ran]) (.inl ⟨path,_,ran⟩)
  | ok found =>
    obtain ⟨ip,φ'⟩ := found
    refine .step (a := ip) (by rw [onFiles,ran]) ?_
    cases ip with
    | none => exact .pure_intro ⟨rfl,rfl,rfl,rfl,rfl⟩
    | some ip => exact .of_ok rfl ⟨rfl,rfl,rfl,rfl,rfl⟩

theorem exec_meets (F : Files φ) (path : List UInt8) (argv : List (List UInt8)) (strings : ∀ a ∈ argv, a.length < 2147483648)
    (old : Separate k K.vm K.proc.pgdir others) (unlocked : ∀ ip, K.locked ip = false) :
    Meets (exec k F path argv) K
      (fun r K' => r = -1 ∧ Abandoned k K K' (others ∪ ownedBy K.vm K.proc.pgdir) ∨ r = 0 ∧ Committed k K K' others argv)
      fun e => F.Faults e ∨ Wraps argv e := by
  have pool := old.pool_owned
  generalize used : others ∪ ownedBy K.vm K.proc.pgdir = taken at *
  have fails {x : X φ Int} {K' : Kernel φ} (meets : Meets x K' (fun r K'' => r = -1 ∧ Abandoned k K K'' taken) F.Faults) :
      Meets x K' (fun r K' => r = -1 ∧ Abandoned k K K' taken ∨ r = 0 ∧ Committed k K K' others argv)
        fun e => F.Faults e ∨ Wraps argv e :=
    meets.mono (fun _ _ failed => .inl failed) fun _ => .inl
  rw [exec]
  refine .step rfl (((namei_meets F path).excuse fun _ => .inl).bind ?_)
  intro r K₁ after
  obtain ⟨vm,ops,locked,proc,refs⟩ := after
  cases r with
  | none =>
    refine .step rfl (.pure_intro (.inl ⟨rfl,?_,?_,?_⟩))
    · simp only [Kernel.rest,ops,locked,proc,refs]
      rfl
    · dsimp only
      rw [vm]
      exact pool
    · dsimp only
      rw [vm]
      exact .refl _
  | some ip =>
    have free := unlocked ip
    have lock : ilock ip K₁ = .ok ((),{K₁ with locked := update K.locked ip true}) := by
      rw [ilock,locked,free]
      rfl
    refine .step lock (((readi_meets F ip 0 52).excuse fun _ => .inl).bind ?_)
    intro got K₂ after
    obtain ⟨vm₂,rest₂,_⟩ := after
    have held : K₂.rest = K.with ip := by
      rw [rest₂]
      simp only [Kernel.rest,Kernel.with,ops,proc,refs]
      rfl
    have memory : K₂.vm = K.vm := vm₂.trans vm
    have pool₂ : Pool k K₂.vm taken := memory ▸ pool
    have same₂ : Same K.vm K₂.vm := by
      rw [memory]
      exact .refl _
    by_cases truncated : got.result ≠ 52
    · rw [if_pos truncated]
      exact fails (bad_early free held pool₂ same₂ _)
    · rw [if_neg truncated]
      dsimp only
      generalize Elfhdr.ofBytes got.bytes = elf
      by_cases foreign : elf.magic ≠ elfMagic
      · rw [if_pos foreign]
        exact fails (bad_early free held pool₂ same₂ _)
      · rw [if_neg foreign]
        refine (onVm_quiet ((setupkvm_meets pool₂).excuse fun _ never => never.elim)).bind ?_
        intro r K₃ after
        obtain ⟨made,rest₃⟩ := after
        rcases made with ⟨is,pool₃,same₃,_⟩ | ⟨d,is,sep,kernel,empty,drawn⟩
        · rw [is]
          rw [memory] at same₃
          exact fails (bad_early free (rest₃.trans held) pool₃ same₃ _)
        · rw [is]
          rw [memory] at drawn
          have loaded := Loaded.fresh sep kernel drawn empty
          refine ((loadImage_meets F ip elf.phnum.toNat elf.phoff 0 loaded).excuse fun _ => .inl).bind ?_
          intro r K₄ after
          obtain ⟨holding,rest₄,image⟩ := after
          have held₄ := rest₄.trans (rest₃.trans held)
          cases r with
          | none => exact fails (bad_loading free held₄ holding _)
          | some sz =>
            refine leave_meets free held₄ ?_
            intro K₅ rest₅ vm₅
            have loaded₅ : Loaded k K.vm K₅.vm d taken sz := vm₅ ▸ image sz rfl
            generalize two : pgRoundUp sz + 2 * pgSize = newsz
            refine (onVm_quiet ((allocStack_meets loaded₅ two).excuse fun _ never => never.elim)).bind ?_
            intro sz K₆ after
            obtain ⟨⟨holding₆,_,stack⟩,rest₆⟩ := after
            by_cases failed : sz = 0
            · rw [if_pos failed]
              exact fails (bad_late (rest₆.trans rest₅) holding₆ _)
            · rw [if_neg failed]
              obtain ⟨_,top,loaded₆,size,second,reach⟩ := stack failed
              refine (onVm_quiet ((clearGuard_meets loaded₆ size second reach).excuse fun _ never => never.elim)).bind ?_
              intro _ K₇ after
              obtain ⟨stacked,rest₇⟩ := after
              rw [← used] at stacked ⊢
              refine (enter_meets path argv strings old stacked (rest₇.trans (rest₆.trans rest₅)) _).mono ?_ fun _ => .inr
              intro r K₈ after
              exact after.imp (fun failed => ⟨failed.1,failed.2.2⟩) fun done => ⟨done.1,done.2.2⟩

end

end Xv6Ext2.Vm
