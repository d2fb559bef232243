import Xv6Ext2.Ext2.DirRecords

/-! What `ext2_dirlookup`, `ext2_dirlink`, `ext2_unlink` and `ext2_isdirempty` do to the records of a directory. They
read 264 bytes at each record, so that they see the records up to the first one that begins less than 264
bytes before the end of the directory, and panic there. -/
namespace Xv6Ext2.Ext2
open Lib Bio

/-- A directory whose blocks are all allocated and within the reach of `ext2_bmap`. -/
structure Dense (fs : Mount) (dp : Inode) (o : Obs) : Prop where
  dir : dp.type = .dir
  wf : Wf fs driverDepth dp o
  near : dp.size.toNat ≤ nearBlocks * bsize
  mapped : ∀ x < dp.size.toNat, ptr dp o (driverSlot (x / bsize)) ≠ 0

section

variable {fs : Mount} {dp : Inode} {o : Obs} {d : Dev} {off n : UInt32}

theorem Dense.not_dev (dense : Dense fs dp o) : dp.type ≠ .dev := by
  rw [dense.dir]
  decide

theorem Dense.reached (dense : Dense fs dp o) {start x : Nat} (inside : x < dp.size.toNat) :
    ¬Missing fs dp o start x := by
  rintro (⟨empty,-⟩ | far)
  · exact dense.mapped x inside empty
  · have near := dense.near
    have blocks : driverBlocks = 262668 := by decide
    rw [blocks,Nat.le_div_iff_mul_le (by decide)] at far
    rw [nearBytes_eq] at near
    simp only [bsize] at far
    omega

theorem readRecord_meets (careful : Careful fs.recycle) (dense : Dense fs dp (obs d))
    (start : off.toNat ≤ dp.size.toNat) (de : Memory) (message : String) :
    Meets (readRecord fs dp de off message) d
      (fun r d' => off.toNat + 264 ≤ dp.size.toNat ∧
        r = (poke de 0 264 (fun j => content dp (obs d) (off.toNat + j)),dp) ∧ obs d' = obs d)
      (fun e => e = .panic message ∧ dp.size.toNat < off.toNat + 264) := by
  have near := dense.near
  rw [nearBytes_eq] at near
  have count : direntSize.toNat = 264 := rfl
  refine ((readi_meets careful dense.wf dense.not_dev de start (by omega)).excuse ?_).bind ?_
  · rintro e ⟨x,-,-,below,missing⟩
    exact absurd missing (dense.reached below)
  · rintro ⟨ret,de',dp'⟩ d' ⟨length,copied,read⟩
    dsimp only at length copied read ⊢
    obtain ⟨rfl,same⟩ := read.same (fun x _ upper => dense.mapped x (by omega))
    by_cases inside : off.toNat + 264 ≤ dp'.size.toNat
    · have whole : ret = direntSize := UInt32.toNat_inj.mp (by omega)
      subst whole
      rw [if_pos rfl]
      exact .pure_intro ⟨inside,by rw [copied]; rfl,same⟩
    · have short : ret ≠ direntSize := by
        rintro rfl
        omega
      rw [if_neg short]
      exact .of_error (fault_run _ _) ⟨rfl,by omega⟩

theorem readRecord_short (careful : Careful fs.recycle) (dense : Dense fs dp (obs d))
    (start : off.toNat ≤ dp.size.toNat) (short : dp.size.toNat < off.toNat + 264) (de : Memory) (message : String) :
    readRecord fs dp de off message d = .error (.panic message) := by
  have meets := readRecord_meets careful dense start de message
  cases ran : readRecord fs dp de off message d with
  | ok result =>
    have inside := (meets.result ran).1
    omega
  | error e =>
    rw [Meets,ran] at meets
    rw [meets.1]

theorem writeRecord_meets (careful : Careful fs.recycle) (dense : Dense fs dp (obs d))
    (inside : off.toNat + n.toNat ≤ dp.size.toNat) (de : Memory) (message : String) :
    Meets (writeRecord fs dp de off n message) d
      (fun dp' d' => dp' = dp ∧ Dense fs dp (obs d') ∧ ∀ x < nearBlocks * bsize,
        content dp (obs d') x = poke (content dp (obs d)) off.toNat n.toNat de x)
      (fun _ => False) := by
  have near := dense.near
  rw [nearBytes_eq] at near
  refine ((writei_meets careful dense.wf dense.not_dev de (by omega)
    (by rw [maxFileBytes_toNat]; omega)).excuse ?_).bind ?_
  · rintro e ⟨x,-,upper,missing⟩
    exact dense.reached (by omega) missing
  · rintro ⟨ret,dp'⟩ d' ⟨length,ip₁,o₁,wrote,after⟩
    dsimp only at length after ⊢
    rw [if_neg (by omega)] at after
    obtain ⟨rfl,rfl⟩ := after
    rw [if_pos length]
    have same : dp' = dp := wrote.root_kept (fun x _ upper => root_ne_zero (dense.mapped x (by omega)))
    subst same
    refine .pure_intro ⟨rfl,⟨dense.dir,wrote.evolved.wf,dense.near,fun x below => ?_⟩,?_⟩
    · have there := dense.mapped x below
      rw [wrote.evolved.keeps _ (driverSlot_leaf _).within there]
      exact there
    · intro x reach
      exact wrote.overwritten (by rw [nearBytes_eq]; omega) x reach

end

/-- The records that the functions see, which end with the directory or where 264 bytes are no longer left. -/
structure Walk (fs : Mount) (dp : Inode) (o : Obs) (recs : List Rec) : Prop extends Dense fs dp o where
  aligned : dp.size.toNat % bsize = 0
  stored : Along Rec.len (fun off r => r.At (content dp o) off) 0 recs
  fits : Along Rec.len (fun off r => 8 + r.name.length ≤ r.len ∧ off + 264 ≤ dp.size.toNat) 0 recs
  ends : span Rec.len recs = dp.size.toNat ∨
    span Rec.len recs < dp.size.toNat ∧ dp.size.toNat < span Rec.len recs + 264

section

variable {fs : Mount} {dp : Inode} {o : Obs} {recs front back : List Rec} {r : Rec} {name : List UInt8} {off : UInt32}
  {d : Dev}

theorem Walk.span_le (walk : Walk fs dp o recs) : span Rec.len recs ≤ dp.size.toNat := by
  rcases walk.ends with whole | ⟨short,-⟩ <;> omega

theorem Walk.at (walk : Walk fs dp o (front ++ r :: back)) : r.At (content dp o) (span Rec.len front) := by
  have stored := (along_append.mp walk.stored).2.1
  rwa [Nat.zero_add] at stored

theorem Walk.space (walk : Walk fs dp o (front ++ r :: back)) : 8 + r.name.length ≤ r.len :=
  (along_append.mp walk.fits).2.1.1

theorem Walk.readable (walk : Walk fs dp o (front ++ r :: back)) : span Rec.len front + 264 ≤ dp.size.toNat := by
  have fits := (along_append.mp walk.fits).2.1.2
  rwa [Nat.zero_add] at fits

theorem Walk.read (walk : Walk fs dp o (front ++ r :: back)) (careful : Careful fs.recycle) (state : obs d = o)
    (place : off.toNat = span Rec.len front) (de : Memory) (message : String) {fail : Fault → Prop} :
    Meets (readRecord fs dp de off message) d
      (fun x d' => x.2 = dp ∧ (∀ j < 264, x.1 j = content dp o (span Rec.len front + j)) ∧ r.At x.1 0 ∧
        (off + Dirent.recLen x.1).toNat = span Rec.len (front ++ [r]) ∧ obs d' = o) fail := by
  subst state
  have readable := walk.readable
  have near := walk.near
  have total := walk.span_le
  rw [nearBytes_eq] at near
  rw [span_append,span_cons] at total
  refine (readRecord_meets careful walk.toDense (by omega) de message).mono ?_ ?_
  · rintro ⟨de₁,dp₁⟩ d₁ ⟨-,result,same⟩
    obtain ⟨rfl,rfl⟩ := Prod.mk.inj result
    have bytes (j : Nat) (bound : j < 264) : poke de 0 264 (fun j => content dp₁ (obs d) (off.toNat + j)) j =
        content dp₁ (obs d) (span Rec.len front + j) := by
      have here := poke_inside de 0 264 (fun j => content dp₁ (obs d) (off.toNat + j)) bound
      rw [Nat.zero_add] at here
      rw [here,place]
    have stored := walk.at.read bytes
    refine ⟨rfl,bytes,stored,?_,same⟩
    rw [UInt32.toNat_add,stored.recLen_toNat,place,Nat.mod_eq_of_lt (by omega)]
    simp
  · rintro e ⟨-,short⟩
    omega

theorem Walk.inside (walk : Walk fs dp o (front ++ r :: back)) (place : off.toNat = span Rec.len front) : off < dp.size := by
  have readable := walk.readable
  rw [UInt32.lt_iff_toNat_lt]
  omega

theorem Walk.finish (walk : Walk fs dp o recs) (careful : Careful fs.recycle) (state : obs d = o)
    (place : off.toNat = span Rec.len recs) :
    span Rec.len recs = dp.size.toNat ∧ off = dp.size ∧ ¬off < dp.size ∨
    span Rec.len recs ≠ dp.size.toNat ∧ off < dp.size ∧
      ∀ de message, readRecord fs dp de off message d = .error (.panic message) := by
  subst state
  rcases walk.ends with whole | ⟨before,short⟩
  · have same : off = dp.size := UInt32.toNat_inj.mp (by omega)
    exact .inl ⟨whole,same,by rw [same]; exact UInt32.lt_irrefl _⟩
  · refine .inr ⟨by omega,by rw [UInt32.lt_iff_toNat_lt]; omega,fun de message => ?_⟩
    exact readRecord_short careful walk.toDense (by omega) (by omega) de message

/-- A loop with as many rounds as the directory has bytes sees all its records, and the place where they end. -/
structure Enough (dp : Inode) (recs back : List Rec) (fuel : Nat) : Prop where
  records : back.length ≤ fuel
  panic : span Rec.len recs ≠ dp.size.toNat → back.length < fuel

theorem Walk.enough (walk : Walk fs dp o recs) : Enough dp recs recs dp.size.toNat := by
  have length := walk.fits.length_le (fun _ _ fits => by omega)
  have total := walk.span_le
  exact ⟨by omega,fun short => by omega⟩

theorem Enough.next {fuel : Nat} (enough : Enough dp recs (r :: back) (fuel + 1)) : Enough dp recs back fuel :=
  ⟨Nat.le_of_succ_le_succ enough.records,fun short => Nat.lt_of_succ_lt_succ (enough.panic short)⟩

theorem Enough.succ {fuel : Nat} (enough : Enough dp recs (r :: back) fuel) : ∃ k, fuel = k + 1 :=
  Nat.exists_eq_succ_of_ne_zero (Nat.ne_of_gt (Nat.lt_of_lt_of_le (Nat.succ_pos _) enough.records))

theorem lookupLoop_meets (careful : Careful fs.recycle) (walk : Walk fs dp o recs) (plain : 0 ∉ name) (fuel : Nat)
    {de fname : Memory} (state : obs d = o) (split : recs = front ++ back)
    (place : off.toNat = span Rec.len front) (enough : Enough dp recs back fuel) :
    Meets (lookupLoop fs (cstring name) fuel dp off de fname) d
      (fun x d' => x = ((locate Rec.len (Rec.accepts name) off.toNat back).map
        (fun found => (found.1.inum,UInt32.ofNat found.2)),dp) ∧ obs d' = o ∧
        (locate Rec.len (Rec.accepts name) off.toNat back = none → span Rec.len recs = dp.size.toNat))
      (fun e => e = .panic "dirlookup read" ∧ locate Rec.len (Rec.accepts name) off.toNat back = none ∧
        span Rec.len recs ≠ dp.size.toNat) := by
  induction back generalizing front fuel off de fname d with
  | nil =>
    rw [List.append_nil] at split
    subst split
    rcases walk.finish careful state place with ⟨whole,-,past⟩ | ⟨short,inside,panics⟩
    · have ran : lookupLoop fs (cstring name) fuel dp off de fname d = .ok ((none,dp),d) := by
        cases fuel <;> rw [lookupLoop,if_neg past] <;> rfl
      exact .of_ok ran ⟨rfl,state,fun _ => whole⟩
    · obtain ⟨fuel,rfl⟩ := Nat.exists_eq_succ_of_ne_zero (Nat.ne_of_gt (enough.panic short))
      rw [lookupLoop,if_pos inside]
      exact .stop (panics _ _) ⟨rfl,rfl,short⟩
  | cons r back ih =>
    obtain ⟨fuel,rfl⟩ := enough.succ
    rw [lookupLoop,if_pos ((split ▸ walk).inside place)]
    refine ((split ▸ walk).read careful state place de _).bind ?_
    rintro ⟨de₁,dp₁⟩ d₁ ⟨rfl,-,stored,advanced,same⟩
    have number : Dirent.inode de₁ = r.inum := stored.inode
    have behind : (off + Dirent.recLen de₁).toNat = off.toNat + r.len := by rw [advanced,place,span_append,span_cons,span_nil,Nat.add_zero]
    have rest (fname' : Memory) := @ih (front ++ [r]) _ d₁ fuel de₁ fname' same (by rw [split]; simp) advanced enough.next
    rw [behind] at rest
    rw [locate]
    dsimp only
    rw [number]
    by_cases removed : r.inum = 0
    · have rejected : Rec.accepts name r = false := by simp [Rec.accepts,removed]
      rw [if_pos removed,rejected,if_neg Bool.false_ne_true]
      exact rest fname
    · rw [if_neg removed]
      have compared := stored.compare plain fname
      by_cases hit : r.name.takeWhile (· ≠ 0) = name.take 255
      · have accepted : Rec.accepts name r = true := by
          simp only [Rec.accepts,decide_eq_true_eq]
          exact ⟨removed,hit⟩
        rw [if_pos (compared.mpr hit),accepted,if_pos rfl]
        refine .pure_intro ⟨?_,same,fun none => absurd none (Option.some_ne_none _)⟩
        rw [Option.map_some,UInt32.ofNat_toNat]
      · have rejected : Rec.accepts name r = false := by
          simp only [Rec.accepts,decide_eq_false_iff_not]
          exact fun both => hit both.2
        rw [if_neg (fun equal => hit (compared.mp equal)),rejected,if_neg Bool.false_ne_true]
        exact rest _

theorem dirlookup_meets (careful : Careful fs.recycle) (walk : Walk fs dp (obs d) recs) (plain : 0 ∉ name)
    (de fname : Memory) :
    Meets (dirlookup fs dp (cstring name) de fname) d
      (fun x d' => x = ((locate Rec.len (Rec.accepts name) 0 recs).map
        (fun found => (found.1.inum,UInt32.ofNat found.2)),dp) ∧ obs d' = obs d ∧
        (locate Rec.len (Rec.accepts name) 0 recs = none → span Rec.len recs = dp.size.toNat))
      (fun e => e = .panic "dirlookup read" ∧ locate Rec.len (Rec.accepts name) 0 recs = none ∧
        span Rec.len recs ≠ dp.size.toNat) :=
  lookupLoop_meets careful walk plain dp.size.toNat rfl (List.nil_append recs).symm rfl walk.enough

/-- The records at which `ext2_isdirempty` does not stop: removed ones, and those whose name is `.` or `..`. -/
def passes (bytes : Memory) (off : Nat) (r : Rec) : Bool := dotName (fun i => bytes (off + i)) ∨ r.inum = 0

theorem dotName_congr {de de' : Memory} (same : ∀ j < 264, de j = de' j) : dotName de = dotName de' := by
  have names : cname (fun i => de (8 + i)) 14 = cname (fun i => de' (8 + i)) 14 := cname_congr fun i _ => same _ (by omega)
  simp only [dotName,strncmp_eq_zero,names]

theorem emptyLoop_meets (careful : Careful fs.recycle) (walk : Walk fs dp o recs) (fuel : Nat) {de : Memory}
    (state : obs d = o) (split : recs = front ++ back) (place : off.toNat = span Rec.len front)
    (enough : Enough dp recs back fuel) :
    Meets (emptyLoop fs fuel dp off de) d
      (fun x d' => x.2 = dp ∧ obs d' = o ∧
        (Along Rec.len (fun pos r => passes (content dp o) pos r = true) (span Rec.len front) back →
          span Rec.len recs = dp.size.toNat))
      (fun e => e = .panic "isdirempty: readi" ∧
        Along Rec.len (fun pos r => passes (content dp o) pos r = true) (span Rec.len front) back ∧
        span Rec.len recs ≠ dp.size.toNat) := by
  induction back generalizing front fuel off de d with
  | nil =>
    rw [List.append_nil] at split
    subst split
    rcases walk.finish careful state place with ⟨whole,-,past⟩ | ⟨short,inside,panics⟩
    · have ran : emptyLoop fs fuel dp off de d = .ok ((true,dp),d) := by
        cases fuel <;> rw [emptyLoop,if_neg past] <;> rfl
      exact .of_ok ran ⟨rfl,state,fun _ => whole⟩
    · obtain ⟨fuel,rfl⟩ := Nat.exists_eq_succ_of_ne_zero (Nat.ne_of_gt (enough.panic short))
      rw [emptyLoop,if_pos inside]
      exact .stop (panics _ _) ⟨rfl,trivial,short⟩
  | cons r back ih =>
    obtain ⟨fuel,rfl⟩ := enough.succ
    rw [emptyLoop,if_pos ((split ▸ walk).inside place)]
    refine ((split ▸ walk).read careful state place de _).bind ?_
    rintro ⟨de₁,dp₁⟩ d₁ ⟨rfl,bytes,stored,advanced,same⟩
    have number : Dirent.inode de₁ = r.inum := stored.inode
    have rest := @ih (front ++ [r]) _ d₁ fuel de₁ same (by rw [split]; simp) advanced enough.next
    rw [span_append,span_cons,span_nil,Nat.add_zero] at rest
    have dots := dotName_congr bytes
    dsimp only
    rw [number,dots]
    -- a record that is passed leaves the rest of the loop, and one that is not ends it
    have along : Along Rec.len (fun pos r => passes (content dp₁ o) pos r = true) (span Rec.len front) (r :: back) ↔
        passes (content dp₁ o) (span Rec.len front) r = true ∧
          Along Rec.len (fun pos r => passes (content dp₁ o) pos r = true) (span Rec.len front + r.len) back := Iff.rfl
    by_cases dot : dotName (fun i => content dp₁ o (span Rec.len front + i)) = true
    · have passed : passes (content dp₁ o) (span Rec.len front) r = true := by simp [passes,dot]
      rw [along,if_pos dot]
      simp only [passed,true_and]
      exact rest
    · rw [along,if_neg dot]
      by_cases removed : r.inum = 0
      · have passed : passes (content dp₁ o) (span Rec.len front) r = true := by simp [passes,removed]
        rw [if_neg (not_not.mpr removed)]
        simp only [passed,true_and]
        exact rest
      · have stopped : passes (content dp₁ o) (span Rec.len front) r ≠ true := by simp [passes,dot,removed]
        rw [if_pos removed]
        exact .pure_intro ⟨rfl,same,fun all => absurd all.1 stopped⟩

theorem isdirempty_meets (careful : Careful fs.recycle) (walk : Walk fs dp (obs d) recs) (de : Memory) :
    Meets (isdirempty fs dp de) d
      (fun x d' => x.2 = dp ∧ obs d' = obs d ∧
        (Along Rec.len (fun pos r => passes (content dp (obs d)) pos r = true) 0 recs → span Rec.len recs = dp.size.toNat))
      (fun e => e = .panic "isdirempty: readi" ∧
        Along Rec.len (fun pos r => passes (content dp (obs d)) pos r = true) 0 recs ∧
        span Rec.len recs ≠ dp.size.toNat) :=
  emptyLoop_meets careful walk dp.size.toNat rfl (List.nil_append recs).symm rfl walk.enough

end

section

variable {fs : Mount} {dp : Inode} {o : Obs} {recs front back : List Rec} {last : Rec} {d : Dev} {off : UInt32} {de : Memory}

structure Cut (fs : Mount) (dp : Inode) (o o' : Obs) (front : List Rec) (last : Rec) : Prop extends Dense fs dp o' where
  space : span Rec.len front + (9 + last.name.length) + 264 ≤ dp.size.toNat
  cut : ({last with len := 9 + last.name.length} : Rec).At (content dp o') (span Rec.len front)
  before : ∀ x < span Rec.len front, content dp o' x = content dp o x

theorem cutRecord_meets (careful : Careful fs.recycle) (walk : Walk fs dp o (front ++ last :: back)) (state : obs d = o)
    (spacious : last.Spacious (span Rec.len front)) (place : off.toNat = span Rec.len front) (stored : last.At de 0) :
    Meets (cutRecord fs dp off de) d
      (fun x d' => x.2.2 = dp ∧ x.1.toNat = span Rec.len front + (9 + last.name.length) ∧ Cut fs dp o (obs d') front last)
      (fun e => e = .panic "ext2_dirlink read 2" ∧
        dp.size.toNat < span Rec.len front + (9 + last.name.length) + 264) := by
  subst state
  have long := spacious.1
  have short := stored.name_le
  have near := walk.near
  rw [nearBytes_eq] at near
  have total := walk.span_le
  rw [span_append,span_cons] at total
  have length : Dirent.nameLen de = last.name.length := stored.nameLen
  have cut := stored.setRecLen (v := 9 + last.name.length) (by omega)
  have next := cut.recLen_toNat
  have size : direntSize.toNat = 264 := rfl
  rw [cutRecord,length,show direntSize.toNat - maxName = 9 from rfl]
  refine ((writeRecord_meets careful walk.toDense (by omega) _ _).excuse (fun _ => False.elim)).bind ?_
  rintro dp₁ d₁ ⟨rfl,dense,written⟩
  have advanced : (off + Dirent.recLen (Dirent.setRecLen de (9 + last.name.length))).toNat =
      span Rec.len front + (9 + last.name.length) := by
    rw [UInt32.toNat_add,next,place,Nat.mod_eq_of_lt (by dsimp only; omega)]
  refine ((readRecord_meets careful dense (by rw [advanced]; omega) _ _).excuse ?_).bind ?_
  · rintro e ⟨message,cutOff⟩
    rw [advanced] at cutOff
    exact ⟨message,cutOff⟩
  · rintro ⟨de₂,dp₂⟩ d₂ ⟨inside,result,same⟩
    obtain ⟨rfl,rfl⟩ := Prod.mk.inj result
    rw [advanced] at inside
    refine .pure_intro ⟨rfl,advanced,?_⟩
    rw [same]
    refine ⟨dense,inside,?_,?_⟩
    · refine cut.congr (fun i bound => ?_)
      rw [written _ (by rw [nearBytes_eq]; dsimp only at bound; omega),place,
        poke_inside _ _ _ _ (by dsimp only at bound; omega),Nat.zero_add]
    · intro x early
      rw [written x (by rw [nearBytes_eq]; omega),poke_outside _ _ _ _ (by omega)]

/-- `last` is the first record that can be cut off. -/
structure Roomy (recs front : List Rec) (last : Rec) (back : List Rec) : Prop where
  split : recs = front ++ last :: back
  tight : Along Rec.len (fun off r => ¬r.Spacious off) 0 front
  spacious : last.Spacious (span Rec.len front)

theorem spaceLoop_meets (careful : Careful fs.recycle) (walk : Walk fs dp o recs) (fuel : Nat) (state : obs d = o)
    (split : recs = front ++ back) (tight : Along Rec.len (fun off r => ¬r.Spacious off) 0 front)
    (place : off.toNat = span Rec.len front) (enough : Enough dp recs back fuel) :
    Meets (spaceLoop fs fuel dp off de) d
      (fun x d' => x.2.2 = dp ∧
        (x.1 = dp.size ∧ obs d' = o ∧ span Rec.len recs = dp.size.toNat ∧ Along Rec.len (fun off r => ¬r.Spacious off) 0 recs ∨
          ∃ front last back, Roomy recs front last back ∧ x.1.toNat = span Rec.len front + (9 + last.name.length) ∧
            Cut fs dp o (obs d') front last))
      (fun e => e = .panic "ext2_dirlink read 1" ∧ span Rec.len recs ≠ dp.size.toNat ∨
        e = .panic "ext2_dirlink read 2" ∧ ∃ front last back, Roomy recs front last back ∧
          dp.size.toNat < span Rec.len front + (9 + last.name.length) + 264) := by
  induction back generalizing front fuel off de d with
  | nil =>
    rw [List.append_nil] at split
    subst split
    rcases walk.finish careful state place with ⟨whole,same,past⟩ | ⟨short,inside,panics⟩
    · have ran : spaceLoop fs fuel dp off de d = .ok ((off,de,dp),d) := by
        cases fuel <;> rw [spaceLoop,if_neg past] <;> rfl
      exact .of_ok ran ⟨rfl,.inl ⟨same,state,whole,tight⟩⟩
    · obtain ⟨fuel,rfl⟩ := Nat.exists_eq_succ_of_ne_zero (Nat.ne_of_gt (enough.panic short))
      rw [spaceLoop,if_pos inside]
      exact .stop (panics _ _) (.inl ⟨rfl,short⟩)
  | cons r back ih =>
    obtain ⟨fuel,rfl⟩ := enough.succ
    rw [spaceLoop,if_pos ((split ▸ walk).inside place)]
    refine ((split ▸ walk).read careful state place de _).bind ?_
    rintro ⟨de₁,dp₁⟩ d₁ ⟨rfl,-,stored,advanced,same⟩
    have test : (direntSize < Dirent.recLen de₁ ∧ (Dirent.recLen de₁).toNat = bsize - off.toNat % bsize) ↔
        r.Spacious (span Rec.len front) := by
      rw [UInt32.lt_iff_toNat_lt,stored.recLen_toNat,place]
      rfl
    dsimp only
    by_cases spacious : r.Spacious (span Rec.len front)
    · rw [if_pos (test.mpr spacious)]
      refine (cutRecord_meets careful (split ▸ walk) same spacious place stored).mono ?_ ?_
      · rintro ⟨off',de',dp'⟩ d' ⟨kept,behind,cut⟩
        exact ⟨kept,.inr ⟨front,r,back,⟨split,tight,spacious⟩,behind,cut⟩⟩
      · rintro e ⟨message,short⟩
        exact .inr ⟨message,front,r,back,⟨split,tight,spacious⟩,short⟩
    · rw [if_neg (fun both => spacious (test.mp both))]
      exact @ih (front ++ [r]) _ _ _ fuel same (by rw [split]; simp) (along_concat.mpr ⟨tight,by rw [Nat.zero_add]; exact spacious⟩)
        advanced enough.next

end

section

variable {fs : Mount} {dp : Inode} {o : Obs} {recs front back : List Rec} {r last : Rec} {name : List UInt8}
  {inum off : UInt32} {d : Dev} {de : Memory}

theorem resize_meets (careful : Careful fs.recycle) (wf : Wf fs driverDepth dp (obs d)) (size : UInt32)
    {fail : Fault → Prop} :
    Meets (resize fs dp size) d
      (fun dp' d' => dp' = {dp with size := size} ∧ obs d' = saved fs {dp with size := size} (obs d)) fail := by
  have wf' : Wf fs driverDepth {dp with size := size} (obs d) := wf.retag rfl rfl
  refine ((iupdate_meets careful wf').excuse (fun _ => False.elim)).bind ?_
  intro _ d' stored
  exact .pure_intro ⟨rfl,stored⟩

theorem Dense.shortened (dense : Dense fs dp o) {size : UInt32} (le : size.toNat ≤ dp.size.toNat) :
    Dense fs {dp with size := size} (saved fs {dp with size := size} o) := by
  have wf : Wf fs driverDepth {dp with size := size} o := dense.wf.retag rfl rfl
  refine ⟨dense.dir,wf.saved,le.trans dense.near,fun x inside => ?_⟩
  rw [ptr_saved wf _ (driverSlot_leaf _).within]
  exact dense.mapped x (by dsimp only at inside; omega)

theorem room_saved (wf : Wf fs driverDepth dp o) : room fs (saved fs dp o) dp.inum = room fs o dp.inum :=
  room_write wf.table_ne.1 wf.table_ne.2 _

theorem Walk.spaces (walk : Walk fs dp o recs) : Along Rec.len (fun _ r => 8 + r.name.length ≤ r.len) 0 recs :=
  walk.fits.mono (fun _ _ _ _ fits => fits.1)

theorem appendRecord_meets (careful : Careful fs.recycle) (walk : Walk fs dp (obs d) recs)
    (whole : span Rec.len recs = dp.size.toNat) (short : name.length ≤ 255)
    (filled : ∀ v < 65536, (⟨inum,name,v⟩ : Rec).At (Dirent.setRecLen de v) 0) (small : dp.size.toNat < nearBlocks * bsize) :
    Meets (appendRecord fs dp dp.size de) d
      (fun dp' d' => Walk fs dp' (obs d') (recs ++ [⟨inum,name,bsize⟩]) ∧ dp'.inum = dp.inum ∧
        dp'.size.toNat = dp.size.toNat + bsize)
      (fun _ => room fs (obs d) dp.inum < 2) := by
  have stored := filled bsize (by decide)
  have aligned := walk.aligned
  have near := small
  rw [nearBytes_eq] at near
  have next : (dp.size + Dirent.recLen (Dirent.setRecLen de bsize)).toNat = dp.size.toNat + bsize := by
    rw [UInt32.toNat_add,stored.recLen_toNat,Nat.mod_eq_of_lt (by simp only [bsize]; omega)]
  generalize bigger : dp.size + Dirent.recLen (Dirent.setRecLen de bsize) = size at next
  have wf₁ : Wf fs driverDepth {dp with size := size} (obs d) := walk.wf.retag rfl rfl
  rw [appendRecord,bigger]
  refine (resize_meets careful walk.wf size).bind ?_
  rintro dp₁ d₁ ⟨rfl,saved₁⟩
  have count : direntSize.toNat = 264 := rfl
  have wf₂ : Wf fs driverDepth {dp with size := size} (obs d₁) := by rw [saved₁]; exact wf₁.saved
  have pointers (x : Nat) : ptr {dp with size := size} (obs d₁) (driverSlot x) = ptr dp (obs d) (driverSlot x) := by
    rw [saved₁]
    exact ptr_saved wf₁ _ (driverSlot_leaf _).within
  refine ((writei_meets careful wf₂ walk.not_dev _ (show dp.size.toNat ≤ size.toNat by omega)
    (by rw [maxFileBytes_toNat]; omega)).excuse ?_).bind ?_
  · rintro e ⟨x,lower,upper,missing⟩
    have here : x / bsize = dp.size.toNat / bsize := by
      simp only [bsize] at aligned ⊢
      omega
    rcases missing with ⟨-,few⟩ | far
    · rw [saved₁,room_saved wf₁,here] at few
      dsimp only at few
      omega
    · have blocks : driverBlocks = 262668 := by decide
      rw [blocks,Nat.le_div_iff_mul_le (by decide)] at far
      simp only [bsize] at far
      omega
  · rintro ⟨ret,dp₂⟩ d₂ ⟨length,ip₂,o₂,wrote,after⟩
    dsimp only at length after ⊢
    rw [if_neg (by simp only [bsize] at next; omega)] at after
    obtain ⟨rfl,rfl⟩ := after
    rw [if_pos length]
    have inode := wrote.evolved.inode
    have sized : dp₂.size.toNat = dp.size.toNat + bsize := by rw [inode]; exact next
    have limit : dp.size.toNat + 264 ≤ nearBlocks * bsize := by
      rw [nearBytes_eq]
      simp only [bsize] at aligned
      omega
    have bytes (x : Nat) (reach : x < nearBlocks * bsize) :
        content dp₂ (obs d₂) x = poke (content dp (obs d)) dp.size.toNat 264 (Dirent.setRecLen de bsize) x := by
      rw [wrote.overwritten (by rw [count]; exact limit) x reach,saved₁,content_saved wf₁]
      rfl
    refine .pure_intro ⟨⟨⟨?_,wrote.evolved.wf,?_,?_⟩,?_,?_,?_,?_⟩,wrote.evolved.inum_eq,sized⟩
    · rw [inode]
      exact walk.dir
    · rw [sized,nearBytes_eq]
      simp only [bsize] at aligned ⊢
      omega
    · intro x below
      rw [sized] at below
      by_cases old : x < dp.size.toNat
      · have there : ptr {dp with size := size} (obs d₁) (driverSlot (x / bsize)) ≠ 0 := by
          rw [pointers]
          exact walk.mapped x old
        rw [wrote.evolved.keeps _ (driverSlot_leaf _).within there]
        exact there
      · have here : x / bsize = dp.size.toNat / bsize := by
          simp only [bsize] at aligned below ⊢
          omega
        rw [here]
        exact wrote.mapped dp.size.toNat (Nat.le_refl _) (by omega)
    · rw [sized,Nat.add_mod_right]
      exact aligned
    · refine along_concat.mpr ⟨?_,?_⟩
      · refine stored_congr walk.spaces walk.stored (fun x _ below => ?_)
        rw [bytes x (by omega),poke_outside _ _ _ _ (by omega)]
      · rw [Nat.zero_add,whole]
        refine stored.congr (fun i bound => ?_)
        rw [bytes _ (by dsimp only at bound; omega),poke_inside _ _ _ _ (by dsimp only at bound; omega),Nat.zero_add]
    · refine along_concat.mpr ⟨walk.fits.mono (fun pos r _ _ fits => ⟨fits.1,by omega⟩),?_⟩
      rw [Nat.zero_add,whole,sized]
      simp only [bsize]
      exact ⟨by omega,by omega⟩
    · left
      rw [sized,span_append,span_cons,span_nil,whole,Nat.add_zero]

def inserted (front : List Rec) (last : Rec) (inum : UInt32) (name : List UInt8) : List Rec :=
  front ++ {last with len := 9 + last.name.length} ::
    if 264 ≤ last.len - (9 + last.name.length) then [⟨inum,name,last.len - (9 + last.name.length)⟩] else []

theorem insertRecord_meets (careful : Careful fs.recycle) (walk : Walk fs dp o (front ++ last :: back))
    (spacious : last.Spacious (span Rec.len front)) (cut : Cut fs dp o (obs d) front last)
    (place : off.toNat = span Rec.len front + (9 + last.name.length)) (short : name.length ≤ 255)
    (filled : ∀ v < 65536, (⟨inum,name,v⟩ : Rec).At (Dirent.setRecLen de v) 0) {fail : Fault → Prop} :
    Meets (insertRecord fs dp off de) d
      (fun dp' d' => Walk fs dp' (obs d') (inserted front last inum name) ∧ dp'.inum = dp.inum ∧
        dp'.size.toNat = span Rec.len front + last.len ∧ ∀ j < last.len - (9 + last.name.length),
          content dp' (obs d') (off.toNat + j) = Dirent.setRecLen de (last.len - (9 + last.name.length)) j) fail := by
  obtain ⟨long,block⟩ := spacious
  have nameLe := walk.at.name_le
  have total := walk.span_le
  rw [span_append,span_cons] at total
  have near := walk.near
  rw [nearBytes_eq] at near
  have rest : bsize - off.toNat % bsize = last.len - (9 + last.name.length) := by
    rw [place]
    simp only [bsize] at block ⊢
    omega
  have stored := filled (last.len - (9 + last.name.length)) (by simp only [bsize] at block; omega)
  have count := stored.recLen_toNat
  dsimp only at count
  have next : (off + Dirent.recLen (Dirent.setRecLen de (last.len - (9 + last.name.length)))).toNat =
      span Rec.len front + last.len := by
    rw [UInt32.toNat_add,count,place,Nat.mod_eq_of_lt (by omega)]
    omega
  rw [insertRecord,rest]
  generalize off + Dirent.recLen (Dirent.setRecLen de (last.len - (9 + last.name.length))) = size at next
  refine (resize_meets careful cut.wf size).bind ?_
  rintro dp₁ d₁ ⟨rfl,saved₁⟩
  have wf : Wf fs driverDepth {dp with size := size} (obs d) := cut.wf.retag rfl rfl
  have dense : Dense fs {dp with size := size} (obs d₁) := by
    rw [saved₁]
    exact cut.toDense.shortened (by omega)
  refine ((writeRecord_meets careful dense (by dsimp only; omega) _ _).excuse (fun _ => False.elim)).mono ?_ (fun _ stopped => stopped)
  rintro dp₂ d₂ ⟨rfl,dense₂,written⟩
  have bytes (x : Nat) (inside : x < dp.size.toNat) : content {dp with size := size} (obs d₂) x =
      poke (content dp (obs d)) off.toNat (last.len - (9 + last.name.length))
        (Dirent.setRecLen de (last.len - (9 + last.name.length))) x := by
    have here := written x (by rw [nearBytes_eq]; omega)
    rw [count,saved₁] at here
    rw [here]
    simp only [poke]
    split_ifs
    · rfl
    · exact content_saved wf x
  have before : Along Rec.len (fun pos r => r.At (content {dp with size := size} (obs d₂)) pos) 0 front := by
    refine stored_congr (along_append.mp walk.spaces).1 (along_append.mp walk.stored).1 (fun x _ below => ?_)
    rw [bytes x (by omega),poke_outside _ _ _ _ (by omega),cut.before x (by omega)]
  have kept : ({last with len := 9 + last.name.length} : Rec).At (content {dp with size := size} (obs d₂)) (0 + span Rec.len front) := by
    rw [Nat.zero_add]
    refine cut.cut.congr (fun i bound => ?_)
    dsimp only at bound
    rw [bytes _ (by omega),poke_outside _ _ _ _ (by omega)]
  have readable : Along Rec.len (fun pos r => 8 + r.name.length ≤ r.len ∧ pos + 264 ≤ size.toNat) 0 front := by
    refine (along_append.mp walk.fits).1.mono (fun pos r _ upper fits => ⟨fits.1,?_⟩)
    omega
  refine ⟨⟨dense₂,?_,?_,?_,?_⟩,rfl,next,?_⟩
  · dsimp only
    rw [next]
    simp only [bsize] at block ⊢
    omega
  · rw [inserted]
    split_ifs with fits
    · refine along_append.mpr ⟨before,kept,?_,trivial⟩
      rw [Nat.zero_add]
      dsimp only
      rw [← place]
      refine stored.congr (fun i bound => ?_)
      dsimp only at bound
      rw [bytes _ (by omega),poke_inside _ _ _ _ (by omega),Nat.zero_add]
    · exact along_append.mpr ⟨before,kept,trivial⟩
  · rw [inserted]
    dsimp only
    split_ifs with fits
    · exact along_append.mpr ⟨readable,⟨by dsimp only; omega,by omega⟩,⟨by dsimp only; omega,by dsimp only; omega⟩,trivial⟩
    · exact along_append.mpr ⟨readable,⟨by dsimp only; omega,by omega⟩,trivial⟩
  · rw [inserted]
    dsimp only
    split_ifs with fits
    · left
      simp only [span_append,span_cons,span_nil]
      omega
    · right
      simp only [span_append,span_cons,span_nil]
      omega
  · intro j inside
    rw [bytes _ (by omega),poke_inside _ _ _ _ inside]

inductive Linked (recs : List Rec) (size : Nat) (inum : UInt32) (name : List UInt8) : List Rec → Nat → Prop where
  | append (tight : Along Rec.len (fun off r => ¬r.Spacious off) 0 recs) :
    Linked recs size inum name (recs ++ [⟨inum,name,bsize⟩]) (size + bsize)
  | insert {front : List Rec} {last : Rec} {back : List Rec} (roomy : Roomy recs front last back)
    (readable : span Rec.len front + (9 + last.name.length) + 264 ≤ size) :
    Linked recs size inum name (inserted front last inum name) (span Rec.len front + last.len)

theorem dirlink_meets (careful : Careful fs.recycle) (walk : Walk fs dp (obs d) recs) (plain : 0 ∉ name)
    (small : dp.size.toNat < nearBlocks * bsize) (inum : UInt32) (de lookupDe lookupName : Memory) :
    Meets (dirlink fs dp (cstring name) inum de lookupDe lookupName) d
      (fun x d' => x.1 = -1 ∧ x.2 = dp ∧ obs d' = obs d ∧
          (∃ found, locate Rec.len (Rec.accepts name) 0 recs = some found ∧ found.1.inum ≠ dp.inum) ∨
        x.1 = 0 ∧ locate Rec.len (Rec.accepts name) 0 recs = none ∧ span Rec.len recs = dp.size.toNat ∧
          x.2.inum = dp.inum ∧
          ∃ recs', Linked recs dp.size.toNat inum (name.take 255) recs' x.2.size.toNat ∧ Walk fs x.2 (obs d') recs')
      (fun e => e = .deadlock ∧
          (∃ found, locate Rec.len (Rec.accepts name) 0 recs = some found ∧ found.1.inum = dp.inum) ∨
        locate Rec.len (Rec.accepts name) 0 recs = none ∧
          (e = .panic "dirlookup read" ∧ span Rec.len recs ≠ dp.size.toNat ∨ 255 ≤ name.length ∨
            e = .panic "ext2_dirlink read 2" ∧ (∃ front last back, Roomy recs front last back ∧
              dp.size.toNat < span Rec.len front + (9 + last.name.length) + 264) ∨
            room fs (obs d) dp.inum < 2)) := by
  refine ((dirlookup_meets careful walk plain lookupDe lookupName).excuse
    (fun e stopped => .inr ⟨stopped.2.1,.inl ⟨stopped.1,stopped.2.2⟩⟩)).bind ?_
  rintro ⟨found,dp₁⟩ d₁ ⟨result,same,whole⟩
  obtain ⟨rfl,rfl⟩ := Prod.mk.inj result
  cases located : locate Rec.len (Rec.accepts name) 0 recs with
  | some hit =>
    dsimp only [Option.map_some]
    by_cases own : hit.1.inum = dp₁.inum
    · rw [if_pos own]
      exact .of_error (fault_run _ _) (.inl ⟨rfl,hit,rfl,own⟩)
    · rw [if_neg own]
      exact .pure_intro (.inl ⟨rfl,rfl,same,hit,rfl,own⟩)
  | none =>
    replace whole := whole located
    dsimp only [Option.map_none]
    rw [← same] at walk ⊢
    refine ((spaceLoop_meets careful walk dp₁.size.toNat rfl (List.nil_append recs).symm trivial rfl walk.enough).excuse ?_).bind ?_
    · rintro e (⟨-,short⟩ | short)
      · exact absurd whole short
      · exact .inr ⟨rfl,.inr (.inr (.inl short))⟩
    rintro ⟨off,de₂,dp₂⟩ d₂ ⟨kept,outcome⟩
    dsimp only at kept outcome ⊢
    subst kept
    refine ((fillRecord_meets plain de₂ inum d₂).excuse (fun e long => .inr ⟨rfl,.inr (.inl (by omega))⟩)).bind ?_
    rintro de₃ d₃ ⟨rfl,filled,-⟩
    have limit : (name.take 255).length ≤ 255 := by
      rw [List.length_take]
      omega
    rcases outcome with ⟨rfl,same₂,-,tight⟩ | ⟨front,last,back,roomy,place,cut⟩
    · rw [if_pos rfl]
      rw [← same₂] at walk ⊢
      refine ((appendRecord_meets careful walk whole limit filled small).excuse
        (fun e few => .inr ⟨rfl,.inr (.inr (.inr few))⟩)).bind ?_
      rintro dp₃ d₃ ⟨walk₃,number,sized⟩
      refine .pure_intro (.inr ⟨rfl,rfl,whole,number,_,?_,walk₃⟩)
      rw [sized]
      exact .append tight
    · have split := roomy.split
      have inside : off ≠ dp₂.size := by
        have space := cut.space
        rintro rfl
        omega
      rw [if_neg inside]
      refine (insertRecord_meets careful (split ▸ walk) roomy.spacious cut place limit filled).bind ?_
      rintro dp₃ d₃ ⟨walk₃,number,sized,-⟩
      refine .pure_intro (.inr ⟨rfl,rfl,whole,number,_,?_,walk₃⟩)
      rw [sized]
      exact .insert roomy cut.space

theorem unlink_meets (careful : Careful fs.recycle) (walk : Walk fs dp (obs d) (front ++ r :: back))
    (place : off.toNat = span Rec.len front) (de de1 : Memory) :
    Meets (unlink fs dp off de de1) d
      (fun dp' d' => dp' = dp ∧ Walk fs dp (obs d') (front ++ ⟨0,[],r.len⟩ :: back)) (fun _ => False) := by
  have space := walk.space
  have total := walk.span_le
  rw [span_append,span_cons] at total
  have near := walk.near
  rw [nearBytes_eq] at near
  refine (walk.read careful rfl place de1 _).bind ?_
  rintro ⟨de₁,dp₁⟩ d₁ ⟨rfl,-,stored,-,same⟩
  have count : (Dirent.recLen de₁).toNat = r.len := stored.recLen_toNat
  have small : r.len < 65536 := by
    rw [← walk.at.recLen]
    exact UInt16.toNat_lt _
  have blank := blank_at de small
  rw [← same] at walk
  dsimp only
  rw [count]
  refine (writeRecord_meets careful walk.toDense (by omega) _ _).mono ?_ (fun _ stopped => stopped)
  rintro dp₂ d₂ ⟨rfl,dense,written⟩
  rw [count,place] at written
  obtain ⟨before,-,after⟩ := along_append.mp walk.stored
  obtain ⟨spaceBefore,-,spaceAfter⟩ := along_append.mp walk.spaces
  obtain ⟨fitsBefore,fits,fitsAfter⟩ := along_append.mp walk.fits
  refine ⟨rfl,dense,walk.aligned,along_append.mpr ⟨?_,?_,?_⟩,along_append.mpr ⟨fitsBefore,⟨?_,fits.2⟩,fitsAfter⟩,?_⟩
  · refine stored_congr spaceBefore before (fun x _ below => ?_)
    rw [written x (by rw [nearBytes_eq]; omega),poke_outside _ _ _ _ (by omega)]
  · rw [Nat.zero_add]
    refine blank.congr (fun i bound => ?_)
    simp only [List.length_nil] at bound
    rw [written _ (by rw [nearBytes_eq]; omega),poke_inside _ _ _ _ (by omega),Nat.zero_add]
    rfl
  · refine stored_congr spaceAfter after (fun x lower below => ?_)
    dsimp only at lower below
    rw [written x (by rw [nearBytes_eq]; omega),poke_outside _ _ _ _ (by omega)]
  · simp only [List.length_nil]
    omega
  · have ends := walk.ends
    rw [span_append,span_cons] at ends ⊢
    exact ends

end

end Xv6Ext2.Ext2
