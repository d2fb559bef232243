import Xv6Ext2.Ext2.DirCalls

/-! A directory over whole runs: a finite map from names to inode numbers. -/
namespace Xv6Ext2.Ext2
open Lib Bio Function

abbrev Entries := List UInt8 → Option UInt32

inductive DirOp where
  | link (name : List UInt8) (inum : UInt32) (de lookupDe lookupName : Memory)
  | unlink (name : List UInt8) (de de1 lookupDe lookupName : Memory)

/-- `ext2_dirlink`, or `ext2_unlink` at the offset that `ext2_dirlookup` returns. -/
def DirOp.run (fs : Mount) (dp : Inode) : DirOp → K (Int × Inode)
  | .link name inum de lookupDe lookupName => dirlink fs dp (cstring name) inum de lookupDe lookupName
  | .unlink name de de1 lookupDe lookupName => do
    let (found,dp) ← dirlookup fs dp (cstring name) lookupDe lookupName
    match found with
    | some (_,off) =>
      let dp ← Ext2.unlink fs dp off de de1
      return (0,dp)
    | none => return (-1,dp)

def DirOp.apply (m : Entries) : DirOp → Int × Entries
  | .link name inum _ _ _ => if m name = none then (0,update m name (some inum)) else (-1,m)
  | .unlink name _ _ _ _ => if m name = none then (-1,m) else (0,update m name none)

def runDir (fs : Mount) (dp : Inode) : List DirOp → K (List Int × Inode)
  | [] => pure ([],dp)
  | op :: ops => do
    let (ret,dp) ← op.run fs dp
    let (rets,dp) ← runDir fs dp ops
    return (ret :: rets,dp)

def applyAll (m : Entries) : List DirOp → List Int × Entries
  | [] => ([],m)
  | op :: ops => ((op.apply m).1 :: (applyAll (op.apply m).2 ops).1,(applyAll (op.apply m).2 ops).2)

/-- A call that keeps the directory a map. A link is made under a proper name, not under one that
stands for the directory itself, while the directory has fewer than 12 + 512 blocks and the allocator
has blocks to give. -/
def DirOp.Allowed (fs : Mount) (dp : Inode) (d : Dev) (m : Entries) : DirOp → Prop
  | .link name inum _ _ _ => NameOk name ∧ inum ≠ 0 ∧ m name ≠ some dp.inum ∧
      dp.size.toNat < nearBlocks * bsize ∧ 2 ≤ room fs (obs d) dp.inum
  | .unlink name _ _ _ _ => 0 ∉ name

/-- Every call of the run is allowed when it is made. -/
def AllowedRun (fs : Mount) : Inode → Dev → Entries → List DirOp → Prop
  | _, _, _, [] => True
  | dp, d, m, op :: ops => op.Allowed fs dp d m ∧
      ∀ ret dp' d', op.run fs dp d = .ok ((ret,dp'),d') → AllowedRun fs dp' d' (op.apply m).2 ops

/-- The chain of `rec_len` from `off` on ends at `size` and crosses no block boundary. -/
inductive Tiled (bytes : Memory) (size : Nat) : Nat → Prop where
  | done : Tiled bytes size size
  | step {off : Nat} (positive : 0 < (u16 bytes (off + 4)).toNat)
      (block : off % bsize + (u16 bytes (off + 4)).toNat ≤ bsize)
      (rest : Tiled bytes size (off + (u16 bytes (off + 4)).toNat)) : Tiled bytes size off

/-- `ext2_dirlookup` finds what the map has, and the records tile the directory. -/
structure Implements (fs : Mount) (dp : Inode) (d : Dev) (m : Entries) : Prop where
  lookup : ∀ name, 0 ∉ name → ∀ de fname, ∃ found d',
    dirlookup fs dp (cstring name) de fname d = .ok ((found,dp),d') ∧ found.map Prod.fst = m name
  tiled : Tiled (content dp (obs d)) dp.size.toNat 0

structure Holds (fs : Mount) (dp : Inode) (o : Obs) (recs : List Rec) : Prop extends Walk fs dp o recs where
  chained : Chained recs
  size : dp.size.toNat = span Rec.len recs

section

variable {fs : Mount} {dp : Inode} {d : Dev} {recs : List Rec}

private theorem tiled_of_stored {bytes : Memory} {size off : Nat} (fits : Along Rec.len Rec.Fits off recs)
    (stored : Along Rec.len (fun pos r => r.At bytes pos) off recs) (total : off + span Rec.len recs = size) :
    Tiled bytes size off := by
  induction recs generalizing off with
  | nil =>
    rw [span_nil,Nat.add_zero] at total
    rw [total]
    exact .done
  | cons r recs ih =>
    have space := fits.1.space
    rw [span_cons,← Nat.add_assoc] at total
    refine .step (by rw [stored.1.recLen]; omega) (by rw [stored.1.recLen]; exact fits.1.block) ?_
    rw [stored.1.recLen]
    exact ih fits.2 stored.2 total

theorem Chained.locate_eq (chained : Chained recs) (name : List UInt8) :
    locate Rec.len (Rec.accepts name) 0 recs = locate Rec.len (Rec.names name) 0 recs := by
  refine locate_congr fun r member => ?_
  obtain ⟨pos,fits⟩ := chained.fits.mem member
  exact fits.accepts_eq

theorem Holds.lookup (careful : Careful fs.recycle) (holds : Holds fs dp (obs d) recs) {name : List UInt8} (plain : 0 ∉ name)
    (de fname : Memory) {fail : Fault → Prop} :
    Meets (dirlookup fs dp (cstring name) de fname) d
      (fun x d' => x = ((locate Rec.len (Rec.names name) 0 recs).map (fun found => (found.1.inum,UInt32.ofNat found.2)),dp) ∧
        obs d' = obs d) fail := by
  rw [← holds.chained.locate_eq]
  exact (dirlookup_meets careful holds.toWalk plain de fname).mono (fun _ _ post => ⟨post.1,post.2.1⟩)
    (fun _ stopped => absurd holds.size.symm stopped.2.2)

theorem Holds.implements (careful : Careful fs.recycle) (holds : Holds fs dp (obs d) recs) :
    Implements fs dp d (find recs) where
  lookup name plain de fname := by
    obtain ⟨r,d',ran,result,-⟩ := (holds.lookup careful plain de fname).returns (fun _ => id)
    refine ⟨r.1,d',by rw [ran,result],?_⟩
    rw [result,find_eq_locate,Option.map_map]
    rfl
  tiled := tiled_of_stored holds.chained.fits holds.stored (by rw [Nat.zero_add,holds.size])

theorem Linked.chained (chained : Chained recs) {name : List UInt8} {inum : UInt32} (absent : find recs name = none)
    (ok : NameOk name) (nonzero : inum ≠ 0) {recs' : List Rec} {size : Nat}
    (linked : Linked recs (span Rec.len recs) inum name recs' size) :
    Chained recs' ∧ size = span Rec.len recs' ∧ find recs' = update (find recs) name (some inum) := by
  cases linked with
  | append tight =>
    refine ⟨chained.append tight absent ok nonzero,?_,find_appended absent nonzero bsize⟩
    rw [span_append,span_cons,span_nil,Nat.add_zero]
  | @insert front last back roomy readable =>
    obtain rfl := roomy.split
    obtain rfl := chained.spacious_last roomy.spacious
    rw [span_append,span_cons,span_nil] at readable
    rw [inserted,if_pos (by omega)]
    refine ⟨chained.insert (by omega) absent ok nonzero,?_,find_inserted absent nonzero _ _⟩
    simp only [span_append,span_cons,span_nil]
    omega

theorem DirOp.run_meets (careful : Careful fs.recycle) (holds : Holds fs dp (obs d) recs) {op : DirOp}
    (allowed : op.Allowed fs dp d (find recs)) :
    Meets (op.run fs dp) d
      (fun r d' => ∃ recs', Holds fs r.2 (obs d') recs' ∧ (r.1,find recs') = op.apply (find recs))
      (fun e => e = .panic "ext2_dirlink read 2") := by
  cases op with
  | link name inum de lookupDe lookupName =>
    obtain ⟨ok,nonzero,foreign,small,room⟩ := allowed
    have first : find recs name = _ := find_eq_locate
    have meets := dirlink_meets careful holds.toWalk ok.plain small inum de lookupDe lookupName
    rw [holds.chained.locate_eq,List.take_of_length_le (by have := ok.short; omega)] at meets
    refine meets.mono ?_ ?_
    · rintro ⟨ret,dp'⟩ d' (⟨rfl,rfl,same,hit,found,-⟩ | ⟨rfl,absent,-,-,recs',linked,walk⟩)
      · refine ⟨recs,by rw [same]; exact holds,?_⟩
        rw [DirOp.apply,if_neg]
        rw [first,found]
        exact Option.some_ne_none _
      · rw [absent,Option.map_none] at first
        rw [holds.size] at linked
        obtain ⟨chained,size,entries⟩ := linked.chained holds.chained first ok nonzero
        refine ⟨recs',⟨walk,chained,size⟩,?_⟩
        rw [DirOp.apply,if_pos first,entries]
    · rintro e (⟨-,hit,found,own⟩ | ⟨-,⟨-,short⟩ | long | ⟨message,-⟩ | few⟩)
      · rw [found] at first
        exact absurd (first.trans (congrArg some own)) foreign
      · exact absurd holds.size.symm short
      · have short := ok.short
        omega
      · exact message
      · omega
  | unlink name de de1 lookupDe lookupName =>
    refine (holds.lookup careful allowed lookupDe lookupName).bind ?_
    rintro ⟨found,dp₁⟩ d₁ ⟨result,same⟩
    obtain ⟨rfl,rfl⟩ := Prod.mk.inj result
    rw [← same] at holds
    have first : find recs name = _ := find_eq_locate
    cases located : locate Rec.len (Rec.names name) 0 recs with
    | none =>
      rw [located,Option.map_none] at first
      refine .pure_intro ⟨recs,holds,?_⟩
      rw [DirOp.apply,if_pos first]
    | some hit =>
      obtain ⟨r,pos⟩ := hit
      rw [located] at first
      obtain ⟨front,back,rfl,place,accepted⟩ := locate_eq_some located
      simp only [Rec.names,decide_eq_true_eq] at accepted
      obtain ⟨nonzero,rfl⟩ := accepted
      have near := holds.near
      have total := holds.size
      rw [nearBytes_eq] at near
      rw [span_append,span_cons] at total
      refine ((unlink_meets careful holds.toWalk ?_ de de1).excuse (fun _ => False.elim)).bind ?_
      · rw [place,Nat.zero_add,UInt32.toNat_ofNat',Nat.mod_eq_of_lt (by omega)]
      · rintro dp₂ d₂ ⟨rfl,walk₂⟩
        refine .pure_intro ⟨_,⟨walk₂,holds.chained.remove,?_⟩,?_⟩
        · rw [span_append,span_cons]
          exact total
        · rw [DirOp.apply,if_neg (by rw [first]; exact Option.some_ne_none _),
            holds.chained.find_removed nonzero]

theorem runDir_meets (careful : Careful fs.recycle) (holds : Holds fs dp (obs d) recs) (ops : List DirOp)
    (allowed : AllowedRun fs dp d (find recs) ops) :
    Meets (runDir fs dp ops) d
      (fun r d' => r.1 = (applyAll (find recs) ops).1 ∧ Implements fs r.2 d' (applyAll (find recs) ops).2)
      (fun e => e = .panic "ext2_dirlink read 2") := by
  induction ops generalizing dp d recs with
  | nil => exact .pure_intro ⟨rfl,holds.implements careful⟩
  | cons op ops ih =>
    have first := DirOp.run_meets careful holds allowed.1
    cases ran : op.run fs dp d with
    | error e =>
      rw [Meets,ran] at first
      exact .stop ran first
    | ok result =>
      obtain ⟨⟨ret,dp₁⟩,d₁⟩ := result
      obtain ⟨recs₁,holds₁,applied⟩ := first.result ran
      obtain ⟨returned,entries⟩ := Prod.ext_iff.mp applied
      dsimp only at returned entries holds₁
      have rest := ih holds₁ (by rw [entries]; exact allowed.2 _ _ _ ran)
      rw [entries] at rest
      refine .step ran (rest.bind ?_)
      rintro ⟨rets,dp₂⟩ d₂ ⟨returns,implements⟩
      dsimp only at returns implements
      exact .pure_intro ⟨by rw [returned,returns]; rfl,implements⟩

end

/-- Every run of links and removals on a new directory, beginning with the `.` and `..` of `create`,
does what it does on a finite map: the calls return the same, what is looked up is what the map has,
and the records tile the directory. A call can only stop where `ext2_dirlink` panics. -/
theorem directory_implements_map {fs : Mount} (careful : Careful fs.recycle) {dp : Inode} {d : Dev}
    (dir : dp.type = .dir) (empty : dp.size = 0) (wf : Wf fs driverDepth dp (obs d)) (ops : List DirOp)
    (allowed : AllowedRun fs dp d (fun _ => none) ops) :
    Meets (runDir fs dp ops) d
      (fun r d' => r.1 = (applyAll (fun _ => none) ops).1 ∧ Implements fs r.2 d' (applyAll (fun _ => none) ops).2)
      (fun e => e = .panic "ext2_dirlink read 2") := by
  have nothing (x : Nat) : ¬x < dp.size.toNat := by
    rw [empty]
    exact Nat.not_lt_zero x
  have holds : Holds fs dp (obs d) [] := by
    refine ⟨⟨⟨dir,wf,?_,fun x inside => absurd inside (nothing x)⟩,by rw [empty]; rfl,trivial,trivial,.inl (by rw [empty]; rfl)⟩,
      chained_nil,by rw [empty]; rfl⟩
    rw [empty]
    exact Nat.zero_le _
  exact runDir_meets careful holds ops allowed

/-- The entry `.` made and taken away again. -/
private def dotTwice : List DirOp := [.link [46] 1 garbage garbage garbage,.unlink [46] garbage garbage garbage garbage]

theorem directory_implements_dot :
    AllowedRun stillMount (newInode 1 .dir) (cold bare) (fun _ => none) dotTwice ∧
    ∃ r d', runDir stillMount (newInode 1 .dir) dotTwice (cold bare) = .ok (r,d') ∧
      r.1 = (applyAll (fun _ => none) dotTwice).1 ∧
      Implements stillMount r.2 d' (applyAll (fun _ => none) dotTwice).2 := by
  have ok : NameOk [46] := ⟨by decide,by decide,by decide⟩
  have room : 2 ≤ room stillMount (obs (cold bare)) 1 := card_le_room 1 {1,2} (by decide +kernel)
  have allowed : AllowedRun stillMount (newInode 1 .dir) (cold bare) (fun _ => none) dotTwice := by
    rw [dotTwice,AllowedRun]
    refine ⟨⟨ok,by decide,by simp,by decide,room⟩,fun _ _ _ _ => ?_⟩
    rw [AllowedRun]
    exact ⟨ok.plain,fun _ _ _ _ => trivial⟩
  have wf := bare_wf (fun _ _ => false) driverDepth .dir
  have returns : stopped (runDir stillMount (newInode 1 .dir) dotTwice) (cold bare) = none := by
    decide +kernel
  refine ⟨allowed,?_⟩
  -- With the machine's state a variable the elaborator does not run the calls.
  generalize cold bare = d at allowed wf returns ⊢
  have meets := directory_implements_map never_careful rfl rfl wf _ allowed
  rw [stopped] at returns
  split at returns
  · rename_i result ran
    exact ⟨result.1,result.2,ran,meets.result ran⟩
  · cases returns

/-- Linking the name `.` again waits for the lock of the directory, which the caller holds. -/
theorem dirlink_dot_deadlocks :
    (newInode 1 .dir).type = .dir ∧ (newInode 1 .dir).size = 0 ∧
      Wf stillMount driverDepth (newInode 1 .dir) (obs (cold bare)) ∧ NameOk [46] ∧
      runDir stillMount (newInode 1 .dir)
        [.link [46] 1 garbage garbage garbage,.link [46] 5 garbage garbage garbage] (cold bare) = .error .deadlock := by
  refine ⟨rfl,rfl,bare_wf _ _ _,⟨by decide,by decide,by decide⟩,?_⟩
  exact stopped_eq_some (by decide +kernel)

end Xv6Ext2.Ext2
