import Xv6Ext2.Ext2.DirSafety

/-! The records that runs of `ext2_dirlink` and `ext2_unlink` leave, and when they are in the format. -/
namespace Xv6Ext2.Ext2
open Lib Bio

/-- The bytes of a directory are in the format: whole blocks, each tiled by records whose lengths are multiples of four
and cover the names. -/
def Formatted (bytes : Memory) (size : Nat) : Prop :=
  ∃ recs, span Rec.len recs = size ∧ size % bsize = 0 ∧ Along Rec.len (fun off r => r.At bytes off) 0 recs ∧
    Along Rec.len (fun off r => r.len % 4 = 0 ∧ 8 + r.name.length ≤ r.len ∧ off % bsize + r.len ≤ bsize) 0 recs

/-- A property of every call of a run, in the state in which it is made. -/
def EachCall (fs : Mount) (P : Inode → Dev → DirOp → Prop) : Inode → Dev → List DirOp → Prop
  | _, _, [] => True
  | dp, d, op :: ops => P dp d op ∧ ∀ ret dp' d', op.run fs dp d = .ok ((ret,dp'),d') → EachCall fs P dp' d' ops

/-- A property of every state that a run passes through. -/
def EachState (fs : Mount) (Q : Inode → Dev → Prop) : Inode → Dev → List DirOp → Prop
  | dp, d, [] => Q dp d
  | dp, d, op :: ops => Q dp d ∧ ∀ ret dp' d', op.run fs dp d = .ok ((ret,dp'),d') → EachState fs Q dp' d' ops

/-- Names are C strings, and a link is made while the directory has fewer than 12 + 512 blocks. -/
def DirOp.Ready (dp : Inode) : DirOp → Prop
  | .link name _ _ _ _ => 0 ∉ name ∧ dp.size.toNat < nearBlocks * bsize
  | .unlink name _ _ _ _ => 0 ∉ name

/-- If the call cuts a record off, the record has a name of three bytes, or four or eight more and so on. -/
def DirOp.Neat (recs : List Rec) : DirOp → Prop
  | .link name _ _ _ _ => locate Rec.len (Rec.accepts name) 0 recs = none →
      ∀ front last back, Roomy recs front last back → last.name.length % 4 = 3
  | .unlink _ _ _ _ _ => True

structure Laid (fs : Mount) (dp : Inode) (o : Obs) (recs : List Rec) : Prop extends Walk fs dp o recs where
  whole : span Rec.len recs = dp.size.toNat
  tight : Along Rec.len (fun off r => ¬r.Spacious off) 0 recs.dropLast
  blocks : Along Rec.len (fun off r => off % bsize + r.len ≤ bsize) 0 recs

inductive Relaid (recs : List Rec) : DirOp → List Rec → Prop where
  | same {op : DirOp} {recs' : List Rec} (neat : op.Neat recs) (lengths : recs'.map Rec.len = recs.map Rec.len) : Relaid recs op recs'
  | append {op : DirOp} {inum : UInt32} {name : List UInt8} (neat : op.Neat recs) : Relaid recs op (recs ++ [⟨inum,name,bsize⟩])
  | cut {name name' : List UInt8} {inum inum' : UInt32} {de lookupDe lookupName : Memory} {front : List Rec} {last : Rec}
      (absent : locate Rec.len (Rec.accepts name) 0 recs = none) (roomy : Roomy recs front last [])
      (space : 9 + last.name.length ≤ last.len) :
      Relaid recs (.link name inum de lookupDe lookupName)
        (front ++ [{last with len := 9 + last.name.length},⟨inum',name',last.len - (9 + last.name.length)⟩])

section

variable {fs : Mount} {dp : Inode} {o : Obs} {d : Dev} {recs recs' front back : List Rec} {r last : Rec} {op : DirOp}

theorem Relaid.multiple_iff (relaid : Relaid recs op recs') (multiple : ∀ r ∈ recs, r.len % 4 = 0) :
    (∀ r ∈ recs', r.len % 4 = 0) ↔ op.Neat recs := by
  have lengths {l : List Rec} : (∀ r ∈ l, r.len % 4 = 0) ↔ ∀ n ∈ l.map Rec.len, n % 4 = 0 := by
    simp only [List.forall_mem_map]
  cases relaid with
  | same neat same =>
    rw [lengths,same,← lengths]
    exact iff_of_true multiple neat
  | append neat =>
    refine iff_of_true ?_ neat
    rw [List.forall_mem_append]
    exact ⟨multiple,fun r member => by rw [List.mem_singleton.mp member]; exact show bsize % 4 = 0 by decide⟩
  | @cut name name' inum inum' de lookupDe lookupName front last absent roomy space =>
    rw [roomy.split,List.forall_mem_append] at multiple
    have whole : last.len % 4 = 0 := multiple.2 last List.mem_cons_self
    have split : (∀ r ∈ front ++ [{last with len := 9 + last.name.length},⟨inum',name',last.len - (9 + last.name.length)⟩],
        r.len % 4 = 0) ↔ (9 + last.name.length) % 4 = 0 ∧ (last.len - (9 + last.name.length)) % 4 = 0 := by
      rw [List.forall_mem_append]
      simp only [List.forall_mem_cons,List.not_mem_nil,false_imp_iff,implies_true,and_true]
      exact and_iff_right multiple.1
    rw [split]
    constructor
    · intro both _ front' last' back' roomy'
      obtain ⟨-,rfl,-⟩ := roomy.unique roomy'
      omega
    · intro neat
      have three := neat absent front last [] roomy
      omega

theorem Rec.At.unique {bytes : Memory} {off : Nat} {s : Rec} (stored : r.At bytes off) (stored' : s.At bytes off) : r = s := by
  have length : r.name.length = s.name.length := stored.nameLen.symm.trans stored'.nameLen
  have name : r.name = s.name := by
    refine List.ext_getElem length fun i inside inside' => ?_
    have here := (stored.name i inside).symm.trans (stored'.name i inside')
    simpa [cstring,List.getD_eq_getElem?_getD,inside,inside'] using here
  obtain ⟨inum,n,len⟩ := r
  obtain ⟨inum',n',len'⟩ := s
  dsimp only at name
  rw [name]
  congr 1
  · exact stored.inode.symm.trans stored'.inode
  · exact stored.recLen.symm.trans stored'.recLen

theorem Walk.unique {others : List Rec} (walk : Walk fs dp o recs) (walk' : Walk fs dp o others) : recs = others := by
  have ends := walk.ends
  have ends' := walk'.ends
  refine along_unique (B := fun pos => pos + 264 ≤ dp.size.toNat) (fun _ _ _ first second => first.unique second) walk.stored
    walk'.stored (walk.fits.mono fun _ _ _ _ fits => fits.2) (walk'.fits.mono fun _ _ _ _ fits => fits.2) ?_ ?_
  · omega
  · omega

theorem begins_inside {size : Nat} (space : Along Rec.len (fun _ r => 8 + r.name.length ≤ r.len) 0 recs)
    (whole : span Rec.len recs = size) : Along Rec.len (fun pos _ => pos < size) 0 recs := by
  refine space.mono fun pos r _ upper room => ?_
  omega

theorem Laid.formatted_iff (laid : Laid fs dp o recs) :
    Formatted (content dp o) dp.size.toNat ↔ ∀ r ∈ recs, r.len % 4 = 0 := by
  constructor
  · intro formatted
    obtain ⟨others,whole,-,stored,tiles⟩ := formatted
    have space : Along Rec.len (fun _ r => 8 + r.name.length ≤ r.len) 0 others := tiles.mono fun _ _ _ _ tile => tile.2.1
    have same : recs = others := by
      refine along_unique (B := fun pos => pos < dp.size.toNat) (fun _ _ _ first second => first.unique second) laid.stored stored
        (begins_inside laid.spaces laid.whole) (begins_inside space whole) ?_ ?_
      · rw [laid.whole]
        omega
      · rw [whole]
        omega
    rw [same]
    exact along_iff_forall.mp (tiles.mono fun _ _ _ _ tile => tile.1)
  · intro multiple
    refine ⟨recs,laid.whole,laid.aligned,laid.stored,?_⟩
    have lengths : Along Rec.len (fun _ r => r.len % 4 = 0) 0 recs := along_iff_forall.mpr multiple
    exact lengths.and (laid.spaces.and laid.blocks)

theorem Laid.append {dp' : Inode} {o' : Obs} {inum : UInt32} {name : List UInt8} (laid : Laid fs dp o recs)
    (tight : Along Rec.len (fun off r => ¬r.Spacious off) 0 recs) (size : dp'.size.toNat = dp.size.toNat + bsize)
    (walk : Walk fs dp' o' (recs ++ [⟨inum,name,bsize⟩])) : Laid fs dp' o' (recs ++ [⟨inum,name,bsize⟩]) where
  toWalk := walk
  whole := by
    rw [size,span_append,span_cons,span_nil,laid.whole,Nat.add_zero]
  tight := by rwa [List.dropLast_concat]
  blocks := by
    refine along_concat.mpr ⟨laid.blocks,?_⟩
    rw [Nat.zero_add,laid.whole,laid.aligned,Nat.zero_add]

theorem Laid.insert {dp' : Inode} {o' : Obs} {inum : UInt32} {name : List UInt8} (laid : Laid fs dp o (front ++ [last]))
    (roomy : Roomy (front ++ [last]) front last []) (space : 9 + last.name.length ≤ last.len)
    (size : dp'.size.toNat = span Rec.len front + last.len)
    (walk : Walk fs dp' o' (front ++ [{last with len := 9 + last.name.length},⟨inum,name,last.len - (9 + last.name.length)⟩])) :
    Laid fs dp' o' (front ++ [{last with len := 9 + last.name.length},⟨inum,name,last.len - (9 + last.name.length)⟩]) where
  toWalk := walk
  whole := by
    simp only [size,span_append,span_cons,span_nil]
    omega
  tight := by
    rw [List.dropLast_append_of_ne_nil (List.cons_ne_nil _ _)]
    refine along_concat.mpr ⟨roomy.tight,fun spacious => ?_⟩
    have long := spacious.1
    have short := laid.toWalk.at.name_le
    dsimp only at long
    omega
  blocks := by
    obtain ⟨before,block,-⟩ := along_append.mp laid.blocks
    have room := roomy.spacious.2
    refine along_append.mpr ⟨before,?_,?_,trivial⟩
    · dsimp only
      omega
    · rw [Nat.zero_add] at block ⊢
      simp only [bsize] at room ⊢
      omega

theorem DirOp.run_laid (careful : Careful fs.recycle) (laid : Laid fs dp (obs d) recs) (ready : op.Ready dp) :
    Meets (op.run fs dp) d (fun x d' => ∃ recs', Laid fs x.2 (obs d') recs' ∧ Relaid recs op recs') (fun _ => True) := by
  cases op with
  | link name inum de lookupDe lookupName =>
    refine (dirlink_meets careful laid.toWalk ready.1 ready.2 inum de lookupDe lookupName).mono ?_ (fun _ _ => trivial)
    intro x d' outcome
    rcases outcome with ⟨-,kept,same,hit,found,-⟩ | ⟨-,absent,whole,-,recs',linked,walk⟩
    · rw [kept,same]
      refine ⟨recs,laid,.same (fun absent => ?_) rfl⟩
      rw [absent] at found
      cases found
    · refine ⟨recs',?_⟩
      generalize sized : x.2.size.toNat = size at linked
      cases linked with
      | append tight =>
        refine ⟨laid.append tight sized walk,.append fun _ front last back roomy => ?_⟩
        exact absurd tight roomy.not_tight
      | @insert front last back roomy readable =>
        have split := roomy.split
        subst split
        obtain rfl := last_of_tight laid.tight roomy.spacious
        have total := laid.whole
        rw [span_append,span_cons,span_nil] at total
        have space : 9 + last.name.length + 264 ≤ last.len := by omega
        rw [inserted,if_pos (by omega)] at walk ⊢
        exact ⟨laid.insert roomy (by omega) sized walk,.cut absent roomy (by omega)⟩
  | unlink name de de1 lookupDe lookupName =>
    refine ((dirlookup_meets careful laid.toWalk ready lookupDe lookupName).excuse (fun _ _ => trivial)).bind ?_
    intro x d₁ outcome
    obtain ⟨found,dp₁⟩ := x
    obtain ⟨result,same,-⟩ := outcome
    obtain ⟨rfl,rfl⟩ := Prod.mk.inj result
    rw [← same] at laid
    cases located : locate Rec.len (Rec.accepts name) 0 recs with
    | none => exact .pure_intro ⟨recs,laid,.same trivial rfl⟩
    | some hit =>
      obtain ⟨r,pos⟩ := hit
      obtain ⟨front,back,split,place,-⟩ := locate_eq_some located
      subst split
      have near := laid.near
      have total := laid.whole
      rw [nearBytes_eq] at near
      rw [span_append,span_cons] at total
      refine ((unlink_meets careful laid.toWalk ?_ de de1).excuse (fun _ _ => trivial)).bind ?_
      · rw [place,Nat.zero_add,UInt32.toNat_ofNat',Nat.mod_eq_of_lt (by omega)]
      · intro dp₂ d₂ outcome
        obtain ⟨rfl,walk⟩ := outcome
        refine .pure_intro ⟨_,⟨walk,?_,?_,?_⟩,.same trivial (by simp)⟩
        · rw [span_append,span_cons]
          exact total
        · exact tight_blanked laid.tight
        · obtain ⟨before,block,after⟩ := along_append.mp laid.blocks
          exact along_append.mpr ⟨before,block,after⟩

theorem EachState.first {Q : Inode → Dev → Prop} {ops : List DirOp} (each : EachState fs Q dp d ops) : Q dp d := by
  cases ops with
  | nil => exact each
  | cons op ops => exact each.1

theorem runDir_cons {ops : List DirOp} {x : (List Int × Inode) × Dev} (ran : runDir fs dp (op :: ops) d = .ok x) :
    ∃ ret dp₁ d₁ y, op.run fs dp d = .ok ((ret,dp₁),d₁) ∧ runDir fs dp₁ ops d₁ = .ok y := by
  rw [runDir] at ran
  cases first : op.run fs dp d with
  | error e =>
    rw [bind_error first] at ran
    cases ran
  | ok z =>
    obtain ⟨⟨ret,dp₁⟩,d₁⟩ := z
    rw [bind_ok first] at ran
    cases rest : runDir fs dp₁ ops d₁ with
    | error e =>
      dsimp only at ran
      rw [bind_error rest] at ran
      cases ran
    | ok y => exact ⟨ret,dp₁,d₁,y,rfl,rest⟩

theorem formatted_run_iff (careful : Careful fs.recycle) (ops : List DirOp) (laid : Laid fs dp (obs d) recs)
    (multiple : ∀ r ∈ recs, r.len % 4 = 0) (ready : EachCall fs (fun dp _ op => op.Ready dp) dp d ops)
    {x : (List Int × Inode) × Dev} (ran : runDir fs dp ops d = .ok x) :
    EachState fs (fun dp d => Formatted (content dp (obs d)) dp.size.toNat) dp d ops ↔
      EachCall fs (fun dp d op => ∀ recs, Walk fs dp (obs d) recs → op.Neat recs) dp d ops := by
  induction ops generalizing dp d recs x with
  | nil => exact iff_of_true (laid.formatted_iff.mpr multiple) trivial
  | cons op ops ih =>
    obtain ⟨ret,dp₁,d₁,y,first,rest⟩ := runDir_cons ran
    obtain ⟨recs₁,laid₁,relaid⟩ := (DirOp.run_laid careful laid ready.1).result first
    have next := relaid.multiple_iff multiple
    have call : (∀ recs, Walk fs dp (obs d) recs → op.Neat recs) ↔ op.Neat recs := by
      constructor
      · intro neat
        exact neat recs laid.toWalk
      · intro neat others walk
        rwa [← laid.toWalk.unique walk]
    have only {T : Inode → Dev → Prop} : (∀ ret dp' d', op.run fs dp d = .ok ((ret,dp'),d') → T dp' d') ↔ T dp₁ d₁ := by
      constructor
      · intro all
        exact all ret dp₁ d₁ first
      · intro holds ret' dp' d' again
        rw [first] at again
        cases again
        exact holds
    rw [EachState,EachCall,only,only,call]
    by_cases neat : op.Neat recs
    · have here := laid.formatted_iff.mpr multiple
      have after := ih laid₁ (next.mpr neat) (ready.2 _ _ _ first) rest
      rw [after]
      exact ⟨fun both => ⟨neat,both.2⟩,fun both => ⟨here,both.2⟩⟩
    · -- the cut leaves a length that is no multiple of four
      refine iff_of_false ?_ (fun both => neat both.1)
      intro both
      exact neat (next.mp (laid₁.formatted_iff.mp both.2.first))

theorem laid_empty (dir : dp.type = .dir) (empty : dp.size = 0) (wf : Wf fs driverDepth dp (obs d)) : Laid fs dp (obs d) [] := by
  have nothing : dp.size.toNat = 0 := by rw [empty]; rfl
  refine ⟨⟨⟨dir,wf,?_,?_⟩,?_,trivial,trivial,.inl nothing.symm⟩,nothing.symm,trivial,trivial⟩
  · rw [nothing]
    exact Nat.zero_le _
  · intro x inside
    rw [nothing] at inside
    exact absurd inside (Nat.not_lt_zero x)
  · rw [nothing]
    exact Nat.zero_mod _

theorem not_formatted {bytes : Memory} {size : Nat} (length : (u16 bytes 4).toNat % 4 ≠ 0) (positive : size ≠ 0) :
    ¬Formatted bytes size := by
  intro formatted
  obtain ⟨recs,whole,-,stored,tiles⟩ := formatted
  cases recs with
  | nil => exact positive whole.symm
  | cons r recs =>
    have four := tiles.1.1
    rw [← stored.1.recLen,Nat.zero_add] at four
    exact length four

theorem first_link (careful : Careful fs.recycle) (laid : Laid fs dp (obs d) []) {name : List UInt8} (plain : 0 ∉ name)
    (short : name.length ≤ 255) {inum : UInt32} {de lookupDe lookupName : Memory} {ret : Int} {dp' : Inode} {d' : Dev}
    (ran : dirlink fs dp (cstring name) inum de lookupDe lookupName d = .ok ((ret,dp'),d')) :
    dp'.size.toNat = bsize ∧ Walk fs dp' (obs d') [⟨inum,name,bsize⟩] := by
  have nothing : dp.size.toNat = 0 := laid.whole.symm
  have small : dp.size.toNat < nearBlocks * bsize := by
    rw [nothing,nearBytes_eq]
    decide
  rcases (dirlink_meets careful laid.toWalk plain small inum de lookupDe lookupName).result ran with
    ⟨-,-,-,hit,found,-⟩ | ⟨-,-,-,-,recs',linked,walk⟩
  · cases found
  · rw [List.take_of_length_le short] at linked
    dsimp only at linked walk
    generalize sized : dp'.size.toNat = size at linked
    cases linked with
    | append tight =>
      rw [nothing,Nat.zero_add]
      exact ⟨rfl,walk⟩
    | insert roomy readable =>
      have split := roomy.split
      simp at split

end

/-- Over a run on an empty directory that returns, the directory is in the format all the time exactly when each link that
cuts a record off finds one with a name of three bytes, or four or eight more and so on. -/
theorem directory_format_iff {fs : Mount} (careful : Careful fs.recycle) {dp : Inode} {d : Dev} (dir : dp.type = .dir)
    (empty : dp.size = 0) (wf : Wf fs driverDepth dp (obs d)) (ops : List DirOp)
    (ready : EachCall fs (fun dp _ op => op.Ready dp) dp d ops) {x : (List Int × Inode) × Dev} (ran : runDir fs dp ops d = .ok x) :
    EachState fs (fun dp d => Formatted (content dp (obs d)) dp.size.toNat) dp d ops ↔
      EachCall fs (fun dp d op => ∀ recs, Walk fs dp (obs d) recs → op.Neat recs) dp d ops :=
  formatted_run_iff careful ops (laid_empty dir empty wf) (fun _ member => absurd member List.not_mem_nil) ready ran

/-- A name of three bytes, and then another name. -/
private def threeThenOne : List DirOp := [.link [97,98,99] 5 garbage garbage garbage,.link [120] 6 garbage garbage garbage]

theorem directory_format_three : ∃ x, runDir stillMount (newInode 1 .dir) threeThenOne (cold bare) = .ok x ∧
    EachState stillMount (fun dp d => Formatted (content dp (obs d)) dp.size.toNat) (newInode 1 .dir) (cold bare)
      threeThenOne := by
  have seen : probe (runDir stillMount (newInode 1 .dir) threeThenOne) (cold bare) (fun _ _ => some ()) = some () := by
    decide +kernel
  obtain ⟨x,d',ran,-⟩ := probe_eq_some seen
  refine ⟨(x,d'),ran,?_⟩
  have wf := bare_wf (fun _ _ => false) driverDepth .dir
  generalize cold bare = d at ran wf ⊢
  have laid := laid_empty rfl rfl wf
  have after {ret : Int} {dp₁ : Inode} {d₁ : Dev}
      (first : DirOp.run stillMount (newInode 1 .dir) (.link [97,98,99] 5 garbage garbage garbage) d = .ok ((ret,dp₁),d₁)) :=
    first_link never_careful laid (by decide) (by decide) first
  apply (directory_format_iff never_careful rfl rfl wf threeThenOne ?_ ran).mpr
  · refine ⟨?_,?_⟩
    · intro recs walk _ front last back roomy
      rw [← laid.toWalk.unique walk] at roomy
      have split := roomy.split
      simp at split
    · intro ret dp₁ d₁ first
      refine ⟨?_,fun _ _ _ _ => trivial⟩
      intro recs walk _ front last back roomy
      rw [← (after first).2.unique walk] at roomy
      have split := roomy.split
      cases front with
      | nil =>
        obtain ⟨rfl,-⟩ := List.cons.inj split
        rfl
      | cons r front => simp at split
  · refine ⟨⟨by decide,by decide⟩,?_⟩
    intro ret dp₁ d₁ first
    refine ⟨⟨by decide,?_⟩,fun _ _ _ _ => trivial⟩
    rw [(after first).1,nearBytes_eq]
    decide

/-- The entries `.` and `..` that `create` makes. -/
private def dots : List DirOp := [.link [46] 1 garbage garbage garbage,.link [46,46] 2 garbage garbage garbage]

/-- Behind them the record of `.` has length 10. -/
theorem directory_format_dots : Wf stillMount driverDepth (newInode 1 .dir) (obs (cold bare)) ∧
    ∃ rets dp' d', runDir stillMount (newInode 1 .dir) dots (cold bare) = .ok ((rets,dp'),d') ∧
      (u16 (content dp' (obs d')) 4).toNat = 10 ∧ ¬Formatted (content dp' (obs d')) dp'.size.toNat := by
  have seen : probe (runDir stillMount (newInode 1 .dir) dots) (cold bare)
      (fun x d' => some ((u16 (content x.2 (obs d')) 4).toNat,x.2.size.toNat)) = some (10,2048) := by decide +kernel
  obtain ⟨⟨rets,dp'⟩,d',ran,values⟩ := probe_eq_some seen
  obtain ⟨length,size⟩ := Prod.mk.inj (Option.some.inj values)
  dsimp only at length size
  exact ⟨bare_wf _ _ _,rets,dp',d',ran,length,not_formatted (by rw [length]; decide) (by rw [size]; decide)⟩

end Xv6Ext2.Ext2
