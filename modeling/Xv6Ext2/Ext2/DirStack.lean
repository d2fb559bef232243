import Xv6Ext2.Ext2.DirSafety
import Xv6Ext2.Lib.TwoRuns

/-! What `ext2_dirlink` and `ext2_unlink` write of their stack: the record they build has 264 bytes, and they write as
many as `rec_len` says. -/
namespace Xv6Ext2.Ext2
open Lib Bio Function

def SameRecord (de de₂ : Memory) : Prop := ∀ j < 264, de₂ j = de j

/-- `ext2_dirlink` finds a place for the name, and the name that it has then copied into its record does not end there, so that
`strlen` goes on behind the record. -/
def Overruns (fs : Mount) (dp : Inode) (name : Memory) (inum : UInt32) (de lookupDe lookupName : Memory) (d : Dev) : Prop :=
  ∃ dp₁ d₁ x d₂, dirlookup fs dp name lookupDe lookupName d = .ok ((none,dp₁),d₁) ∧
    spaceLoop fs dp₁.size.toNat dp₁ 0 de d₁ = .ok (x,d₂) ∧ fillRecord x.2.1 name inum d₂ = .error .outOfBounds

/-- `ext2_dirlink` reads nothing behind its record: what it does is the same whatever is there on the stack, and `strlen` ends
inside. -/
structure LinkConfined (fs : Mount) (dp : Inode) (name : Memory) (inum : UInt32) (lookupDe lookupName : Memory) (d : Dev) : Prop where
  same : ∀ de de₂, SameRecord de de₂ →
    dirlink fs dp name inum de lookupDe lookupName d = dirlink fs dp name inum de₂ lookupDe lookupName d
  ends : ∀ de, ¬Overruns fs dp name inum de lookupDe lookupName d

/-- What `ext2_unlink` does is the same whatever is behind its record on the stack. -/
def UnlinkConfined (fs : Mount) (dp : Inode) (off : UInt32) (de1 : Memory) (d : Dev) : Prop :=
  ∀ de de₂, SameRecord de de₂ → unlink fs dp off de de1 d = unlink fs dp off de₂ de1 d

section

variable {fs : Mount} {dp ip : Inode} {o : Obs} {d : Dev} {off n : UInt32} {de de₂ : Memory}

theorem patch_congr {k : Nat} (data : Bytes k) (off : Nat) {len : Nat} {src src₂ : Memory} (same : ∀ j < len, src j = src₂ j) :
    data.patch off len src = data.patch off len src₂ := by
  funext i
  simp only [Bytes.patch]
  split_ifs with inside
  · exact same _ (by omega)
  · rfl

theorem writeLoop_congr {len : Nat} {src src₂ : Memory} (same : ∀ j < len, src j = src₂ j) (fuel : Nat) (ip : Inode) (tot off : Nat) :
    writeLoop fs fuel ip src tot off len = writeLoop fs fuel ip src₂ tot off len := by
  induction fuel generalizing ip tot off with
  | zero => rfl
  | succ fuel ih =>
    have patched (data : Block) : data.patch (off % bsize) (min (len - tot) (bsize - off % bsize)) (fun j => src (tot + j)) =
        data.patch (off % bsize) (min (len - tot) (bsize - off % bsize)) (fun j => src₂ (tot + j)) :=
      patch_congr data _ fun j inside => same _ (by omega)
    simp only [writeLoop,patched,ih]

theorem writei_congr (file : ip.type ≠ .dev) (same : ∀ j < n.toNat, de j = de₂ j) (off : UInt32) :
    writei fs ip de off n = writei fs ip de₂ off n := by
  simp only [writei,if_neg file,writeLoop_congr same]

theorem writeRecord_congr (file : dp.type ≠ .dev) (same : ∀ j < n.toNat, de j = de₂ j) (off : UInt32) (message : String) :
    writeRecord fs dp de off n message = writeRecord fs dp de₂ off n message := by
  simp only [writeRecord,writei_congr file same]

theorem poke_congr {off len : Nat} {src : Memory} {j : Nat} (same : de₂ j = de j) : poke de₂ off len src j = poke de off len src j := by
  simp only [poke]
  split_ifs
  · rfl
  · exact same

theorem readLoop_agree (fuel : Nat) (ip : Inode) (dst dst₂ : Memory) (tot off len : Nat) (d : Dev) :
    Agree (readLoop fs fuel ip dst tot off len) (readLoop fs fuel ip dst₂ tot off len) d
      (fun x y _ => y.2 = x.2 ∧ ∀ j, dst₂ j = dst j → y.1 j = x.1 j) := by
  induction fuel generalizing ip dst dst₂ tot off d with
  | zero =>
    rw [readLoop,readLoop]
    split_ifs
    · exact .fault_intro _
    · exact .pure_intro ⟨rfl,fun _ same => same⟩
  | succ fuel ih =>
    rw [readLoop,readLoop]
    split_ifs
    · refine (Agree.refl _ d).bind fun x y d₁ equal => ?_
      subst equal
      obtain ⟨addr,ip₁⟩ := y
      refine (Agree.refl _ d₁).bind fun _ _ d₂ _ => (Agree.refl _ d₂).bind fun data _ d₃ equal => ?_
      subst equal
      refine (Agree.refl _ d₃).bind fun _ _ d₄ _ => (ih _ _ _ _ _ d₄).mono fun x y _ both => ?_
      exact ⟨both.1,fun j same => both.2 j (poke_congr same)⟩
    · exact .pure_intro ⟨rfl,fun _ same => same⟩

theorem readi_agree (file : ip.type ≠ .dev) (dst dst₂ : Memory) (off n : UInt32) (d : Dev) :
    Agree (readi fs ip dst off n) (readi fs ip dst₂ off n) d
      (fun x y _ => y.1 = x.1 ∧ y.2.2 = x.2.2 ∧ ∀ j, dst₂ j = dst j → y.2.1 j = x.2.1 j) := by
  rw [readi,readi,if_neg file,if_neg file]
  split_ifs
  · exact .pure_intro ⟨rfl,rfl,fun _ same => same⟩
  · refine (readLoop_agree _ _ _ _ _ _ _ d).bind fun x y d₁ both => ?_
    exact .pure_intro ⟨rfl,both.1,both.2⟩
  · refine (readLoop_agree _ _ _ _ _ _ _ d).bind fun x y d₁ both => ?_
    exact .pure_intro ⟨rfl,both.1,both.2⟩

theorem readRecord_agree (file : dp.type ≠ .dev) (same : SameRecord de de₂) (off : UInt32) (message : String) (d : Dev) :
    Agree (readRecord fs dp de off message) (readRecord fs dp de₂ off message) d
      (fun x y _ => y.2 = x.2 ∧ SameRecord x.1 y.1) := by
  refine (readi_agree file de de₂ off direntSize d).bind fun x y d₁ all => ?_
  obtain ⟨count,inode,bytes⟩ := all
  dsimp only
  rw [count]
  split_ifs
  · exact .pure_intro ⟨inode,fun j inside => bytes j (same j inside)⟩
  · exact .fault_intro _

theorem SameRecord.recLen (same : SameRecord de de₂) : Dirent.recLen de₂ = Dirent.recLen de :=
  congrArg UInt16.toUInt32 (u16_congr _ _ _ _ fun i bound => same _ (by omega))

theorem SameRecord.setRecLen (same : SameRecord de de₂) (v : Nat) : SameRecord (Dirent.setRecLen de v) (Dirent.setRecLen de₂ v) :=
  fun j inside => poke_congr (same j inside)

theorem SameRecord.written (same : SameRecord de de₂) (file : dp.type ≠ .dev) (short : n.toNat ≤ 264) (off : UInt32)
    (message : String) : writeRecord fs dp de off n message = writeRecord fs dp de₂ off n message :=
  writeRecord_congr file (fun j inside => (same j (by omega)).symm) off message

theorem cutRecord_agree (careful : Careful fs.recycle) (dense : Dense fs dp (obs d)) (inside : off.toNat + 264 ≤ dp.size.toNat)
    (same : SameRecord de de₂) :
    Agree (cutRecord fs dp off de) (cutRecord fs dp off de₂) d
      (fun x y _ => y.1 = x.1 ∧ y.2.2 = x.2.2 ∧ SameRecord x.2.1 y.2.1) := by
  have names : Dirent.nameLen de₂ = Dirent.nameLen de := congrArg UInt8.toNat (same 6 (by decide))
  rw [cutRecord,cutRecord,names]
  have cut := same.setRecLen (direntSize.toNat - maxName + Dirent.nameLen de)
  generalize Dirent.setRecLen de (direntSize.toNat - maxName + Dirent.nameLen de) = de' at cut
  generalize Dirent.setRecLen de₂ (direntSize.toNat - maxName + Dirent.nameLen de) = de₂' at cut
  rw [← cut.written dense.not_dev (n := direntSize) (Nat.le_refl _),cut.recLen]
  have write := writeRecord_meets careful dense (n := direntSize) inside de' "ext2_dirlink write"
  refine ((Agree.refl _ d).meets write).bind fun dp₁ _ d₁ both => ?_
  obtain ⟨rfl,rfl,dense₁,-⟩ := both
  refine (readRecord_agree dense₁.not_dev cut _ _ d₁).bind fun x y d₂ both => ?_
  exact .pure_intro ⟨rfl,both.1,both.2⟩

theorem spaceLoop_agree (careful : Careful fs.recycle) (fuel : Nat) (dense : Dense fs dp o) (state : obs d = o)
    (same : SameRecord de de₂) (off : UInt32) :
    Agree (spaceLoop fs fuel dp off de) (spaceLoop fs fuel dp off de₂) d
      (fun x y _ => y.1 = x.1 ∧ y.2.2 = x.2.2 ∧ SameRecord x.2.1 y.2.1) := by
  subst state
  induction fuel generalizing off de de₂ d with
  | zero =>
    rw [spaceLoop,spaceLoop]
    split_ifs
    · exact .fault_intro _
    · exact .pure_intro ⟨rfl,rfl,same⟩
  | succ fuel ih =>
    rw [spaceLoop,spaceLoop]
    split_ifs with inside
    · have read := readRecord_meets careful dense (Nat.le_of_lt (UInt32.lt_iff_toNat_lt.mp inside)) de "ext2_dirlink read 1"
      refine ((readRecord_agree dense.not_dev same off _ d).meets read).bind fun x y d₁ both => ?_
      obtain ⟨⟨inode,records⟩,whole,result,kept⟩ := both
      obtain ⟨de₁,dp₁⟩ := x
      obtain ⟨de₁',dp₁'⟩ := y
      obtain ⟨-,rfl⟩ := Prod.mk.inj result
      dsimp only at inode records ⊢
      subst inode
      rw [← kept] at dense
      rw [records.recLen]
      split_ifs
      · exact cutRecord_agree careful dense whole records
      · exact ih records _ dense
    · exact .pure_intro ⟨rfl,rfl,same⟩

theorem fillRecord_agree {name : List UInt8} (plain : 0 ∉ name) (same : SameRecord de de₂) (inum : UInt32) (d : Dev) :
    Agree (fillRecord de (cstring name) inum) (fillRecord de₂ (cstring name) inum) d (fun x y _ => SameRecord x y) := by
  have copied (mem : Memory) : strncpy mem 8 (cstring name) maxName = poke mem 8 255 (cstring name) := strncpy_name plain mem
  have named : SameRecord (poke de 8 255 (cstring name)) (poke de₂ 8 255 (cstring name)) := fun j inside => poke_congr (same j inside)
  have length : strlen (fun i => poke de₂ 8 255 (cstring name) (8 + i)) (direntSize.toNat - 8) =
      strlen (fun i => poke de 8 255 (cstring name) (8 + i)) (direntSize.toNat - 8) :=
    strlen_congr fun i inside => named _ (by change i < 256 at inside; omega)
  rw [fillRecord,fillRecord]
  simp only [copied,length]
  split
  · exact .pure_intro fun j inside => poke_congr (poke_congr (named j inside))
  · exact .fault_intro _

theorem resize_agree (careful : Careful fs.recycle) (wf : Wf fs driverDepth dp (obs d)) (size : UInt32) :
    Agree (resize fs dp size) (resize fs dp size) d (fun x y _ => y = x ∧ x.type = dp.type) := by
  have resized : Meets (resize fs dp size) d _ (fun _ => False) := resize_meets careful wf size
  refine ((Agree.refl _ d).meets resized).mono fun x y d₁ both => ?_
  obtain ⟨rfl,rfl,-⟩ := both
  exact ⟨rfl,rfl⟩

theorem appendRecord_agree (careful : Careful fs.recycle) (wf : Wf fs driverDepth dp (obs d)) (file : dp.type ≠ .dev)
    (same : SameRecord de de₂) (off : UInt32) :
    Agree (appendRecord fs dp off de) (appendRecord fs dp off de₂) d (fun x y _ => y = x) := by
  have set := same.setRecLen bsize
  rw [appendRecord,appendRecord,set.recLen]
  refine (resize_agree careful wf _).bind fun x y d₁ both => ?_
  obtain ⟨rfl,type⟩ := both
  rw [set.written (n := direntSize) (by rw [type]; exact file) (Nat.le_refl _)]
  exact .refl _ d₁

theorem insertRecord_agree (careful : Careful fs.recycle) (wf : Wf fs driverDepth dp (obs d)) (file : dp.type ≠ .dev)
    (same : SameRecord de de₂) (short : bsize - off.toNat % bsize ≤ 264) :
    Agree (insertRecord fs dp off de) (insertRecord fs dp off de₂) d (fun x y _ => y = x) := by
  have set := same.setRecLen (bsize - off.toNat % bsize)
  have count := Dirent.recLen_setRecLen de (show bsize - off.toNat % bsize < 65536 by omega)
  rw [insertRecord,insertRecord,set.recLen]
  refine (resize_agree careful wf _).bind fun x y d₁ both => ?_
  obtain ⟨rfl,type⟩ := both
  rw [set.written (n := Dirent.recLen (Dirent.setRecLen de (bsize - off.toNat % bsize))) (by rw [type]; exact file) (by omega)]
  exact .refl _ d₁

end

/-- What is in byte 263 of the record that the search for space read last, `v` if it read none. -/
def lastByte (recs : List Rec) (bytes : Memory) (v : UInt8) : UInt8 :=
  if recs = [] then v else bytes (span Rec.len recs.dropLast + 263)

/-- A link of a name that is not there ends it inside its record, where the last byte is what the search for space left. If the
search finds a record to cut off, at most 264 bytes are left behind the name there. -/
def Tailored (recs : List Rec) (bytes : Memory) (size : Nat) (name : List UInt8) : Prop :=
  locate Rec.len (Rec.accepts name) 0 recs = none → span Rec.len recs = size →
    (∀ front last back, Roomy recs front last back → span Rec.len front + (9 + last.name.length) + 264 ≤ size →
      (name.length ≤ 254 ∨ bytes (span Rec.len front + (9 + last.name.length) + 263) = 0) ∧
        last.len ≤ 264 + (9 + last.name.length)) ∧
    (Along Rec.len (fun off r => ¬r.Spacious off) 0 recs → ∀ v, name.length ≤ 254 ∨ lastByte recs bytes v = 0)

section

variable {fs : Mount} {dp ip : Inode} {o : Obs} {d : Dev} {recs front back : List Rec} {last : Rec} {name : List UInt8}
  {off inum : UInt32} {de de₂ lookupDe lookupName : Memory}

theorem cutRecord_stack (careful : Careful fs.recycle) (dense : Dense fs dp (obs d)) (inside : off.toNat + 264 ≤ dp.size.toNat) :
    Meets (cutRecord fs dp off de) d
      (fun x _ => (∀ j ≥ 264, x.2.1 j = de j) ∧ x.1 < dp.size ∧ x.2.1 263 = content dp (obs d) (x.1.toNat + 263))
      (fun _ => True) := by
  have near := dense.near
  rw [nearBytes_eq] at near
  have short : Dirent.nameLen de ≤ 255 := Nat.le_of_lt_succ (de 6).toNat_lt
  have count := Dirent.recLen_setRecLen de (show 9 + Dirent.nameLen de < 65536 by omega)
  rw [cutRecord,show direntSize.toNat - maxName = 9 from rfl]
  refine ((writeRecord_meets careful dense (n := direntSize) inside _ _).excuse (fun _ => False.elim)).bind ?_
  intro dp₁ d₁ outcome
  obtain ⟨rfl,dense₁,written⟩ := outcome
  have place : (off + Dirent.recLen (Dirent.setRecLen de (9 + Dirent.nameLen de))).toNat = off.toNat + (9 + Dirent.nameLen de) := by
    rw [UInt32.toNat_add,count,Nat.mod_eq_of_lt (by omega)]
  refine ((readRecord_meets careful dense₁ (by omega) _ _).excuse fun _ _ => trivial).bind ?_
  intro x d₂ outcome
  obtain ⟨de₂,dp₂⟩ := x
  obtain ⟨whole,result,-⟩ := outcome
  obtain ⟨rfl,rfl⟩ := Prod.mk.inj result
  refine .pure_intro ⟨fun j behind => ?_,by rw [UInt32.lt_iff_toNat_lt]; dsimp only; omega,?_⟩
  · dsimp only
    rw [poke_outside _ _ _ _ (by omega),Dirent.setRecLen,poke_outside _ _ _ _ (by omega)]
  · have last := poke_inside (Dirent.setRecLen de (9 + Dirent.nameLen de)) 0 264
      (fun j => content dp₂ (obs d₁) ((off + Dirent.recLen (Dirent.setRecLen de (9 + Dirent.nameLen de))).toNat + j))
      (show 263 < 264 by decide)
    rw [Nat.zero_add] at last
    dsimp only
    rw [last,written _ (by rw [nearBytes_eq]; omega),poke_outside _ _ _ _ (by rw [place]; change _ ∨ off.toNat + 264 ≤ _; omega)]

theorem spaceLoop_stack (careful : Careful fs.recycle) (walk : Walk fs dp o recs) (fuel : Nat) (state : obs d = o)
    (split : recs = front ++ back) (place : off.toNat = span Rec.len front) (enough : Enough dp recs back fuel) {v : UInt8}
    (seen : de 263 = lastByte front (content dp o) v) :
    Meets (spaceLoop fs fuel dp off de) d
      (fun x _ => (∀ j ≥ 264, x.2.1 j = de j) ∧ (x.1 < dp.size → x.2.1 263 = content dp o (x.1.toNat + 263)) ∧
        (¬x.1 < dp.size → x.2.1 263 = lastByte recs (content dp o) v)) (fun _ => True) := by
  induction back generalizing front fuel off de d with
  | nil =>
    rw [List.append_nil] at split
    subst split
    rcases walk.finish careful state place with ⟨-,-,past⟩ | ⟨short,inside,panics⟩
    · have ran : spaceLoop fs fuel dp off de d = .ok ((off,de,dp),d) := by
        cases fuel <;> rw [spaceLoop,if_neg past] <;> rfl
      exact .of_ok ran ⟨fun _ _ => rfl,fun inside => absurd inside past,fun _ => seen⟩
    · obtain ⟨fuel,rfl⟩ := Nat.exists_eq_succ_of_ne_zero (Nat.ne_of_gt (enough.panic short))
      rw [spaceLoop,if_pos inside]
      exact .stop (panics _ _) trivial
  | cons r back ih =>
    obtain ⟨fuel,rfl⟩ := enough.succ
    have inside := (split ▸ walk).inside place
    have start := Nat.le_of_lt (UInt32.lt_iff_toNat_lt.mp inside)
    rw [spaceLoop,if_pos inside]
    have read : Meets (readRecord fs dp de off "ext2_dirlink read 1") d _ (fun _ => True) :=
      (split ▸ walk).read careful state place de _
    refine ((read.and (readRecord_meets careful (state.symm ▸ walk.toDense) start de _)).excuse fun _ _ => trivial).bind ?_
    intro x d₁ both
    obtain ⟨de₁,dp₁⟩ := x
    obtain ⟨⟨rfl,bytes,-,advanced,same⟩,whole,result,-⟩ := both
    have beyond (j : Nat) (outside : j ≥ 264) : de₁ j = de j := by
      rw [(Prod.mk.inj result).1,poke_outside _ _ _ _ (by omega)]
    dsimp only
    split_ifs
    · refine (cutRecord_stack careful (same.symm ▸ walk.toDense) whole).mono ?_ fun _ stopped => stopped
      intro x d₂ outcome
      obtain ⟨behind,before,final⟩ := outcome
      rw [same] at final
      exact ⟨fun j outside => (behind j outside).trans (beyond j outside),fun _ => final,fun past => absurd before past⟩
    · have seen₁ : de₁ 263 = lastByte (front ++ [r]) (content dp₁ o) v := by
        rw [lastByte,if_neg (List.append_ne_nil_of_right_ne_nil _ (List.cons_ne_nil _ _)),List.dropLast_concat]
        exact bytes 263 (by decide)
      refine (ih fuel same (show recs = (front ++ [r]) ++ back by rw [split]; simp) advanced enough.next seen₁).mono ?_ fun _ stopped => stopped
      intro x d₂ outcome
      exact ⟨fun j outside => (outcome.1 j outside).trans (beyond j outside),outcome.2⟩

/-- Where the search for space ends, and what it leaves in the record. -/
theorem search_meets (careful : Careful fs.recycle) (walk : Walk fs dp o recs) (state : obs d = o) (de : Memory) :
    Meets (spaceLoop fs dp.size.toNat dp 0 de) d
      (fun x d' => x.2.2 = dp ∧ (∀ j ≥ 264, x.2.1 j = de j) ∧
        (x.1 = dp.size ∧ obs d' = o ∧ Along Rec.len (fun off r => ¬r.Spacious off) 0 recs ∧
            x.2.1 263 = lastByte recs (content dp o) (de 263) ∨
          x.1 ≠ dp.size ∧ ∃ front last back, Roomy recs front last back ∧
            x.1.toNat = span Rec.len front + (9 + last.name.length) ∧ Cut fs dp o (obs d') front last ∧
            x.2.1 263 = content dp o (span Rec.len front + (9 + last.name.length) + 263)))
      (fun _ => span Rec.len recs = dp.size.toNat → ∃ front last back, Roomy recs front last back ∧
        dp.size.toNat < span Rec.len front + (9 + last.name.length) + 264) := by
  refine ((spaceLoop_meets careful walk dp.size.toNat state (List.nil_append recs).symm trivial rfl walk.enough).and
    (spaceLoop_stack careful walk dp.size.toNat state (List.nil_append recs).symm rfl walk.enough rfl)).mono ?_ ?_
  · intro x d' both
    obtain ⟨⟨kept,outcome⟩,behind,inside,past⟩ := both
    refine ⟨kept,behind,?_⟩
    rcases outcome with ⟨size,same,-,tight⟩ | ⟨front,last,back,roomy,place,cut⟩
    · exact .inl ⟨size,same,tight,past (by rw [size]; exact UInt32.lt_irrefl _)⟩
    · have space := cut.space
      have before : x.1 < dp.size := by
        rw [UInt32.lt_iff_toNat_lt]
        omega
      refine .inr ⟨UInt32.ne_of_lt before,front,last,back,roomy,place,cut,?_⟩
      rw [inside before,place]
  · intro e stopped whole
    rcases stopped.1 with ⟨-,short⟩ | ⟨-,cramped⟩
    · exact absurd whole short
    · exact cramped

theorem Roomy.rest (roomy : Roomy recs front last back) (place : off.toNat = span Rec.len front + (9 + last.name.length))
    (short : last.name.length ≤ 255) : bsize - off.toNat % bsize = last.len - (9 + last.name.length) := by
  obtain ⟨long,block⟩ := roomy.spacious
  rw [place]
  simp only [bsize] at block ⊢
  omega

theorem dirlink_same (careful : Careful fs.recycle) (walk : Walk fs dp (obs d) recs) (plain : 0 ∉ name)
    (tailored : Tailored recs (content dp (obs d)) dp.size.toNat name) (same : SameRecord de de₂) :
    dirlink fs dp (cstring name) inum de lookupDe lookupName d = dirlink fs dp (cstring name) inum de₂ lookupDe lookupName d := by
  apply Agree.eq
  refine ((Agree.refl _ d).meets (dirlookup_meets careful walk plain lookupDe lookupName)).bind fun x y d₁ both => ?_
  obtain ⟨rfl,result,kept,whole⟩ := both
  subst result
  cases located : locate Rec.len (Rec.accepts name) 0 recs with
  | some hit =>
    dsimp only [Option.map_some]
    exact .refl _ d₁
  | none =>
    replace whole := whole located
    dsimp only [Option.map_none]
    have search := search_meets careful walk kept de
    refine ((spaceLoop_agree careful dp.size.toNat walk.toDense kept same 0).meets search).bind fun x y d₂ both => ?_
    obtain ⟨off,de₁,dp₁⟩ := x
    obtain ⟨off',de₁',dp₁'⟩ := y
    obtain ⟨⟨offsets,inodes,records⟩,rfl,-,outcome⟩ := both
    dsimp only at offsets inodes records outcome ⊢
    subst offsets inodes
    refine ((fillRecord_agree plain records inum d₂).meets (fillRecord_meets plain de₁ inum d₂)).bind fun de₃ de₃' d₃ both => ?_
    obtain ⟨filled,rfl,-⟩ := both
    rcases outcome with ⟨rfl,same₂,-⟩ | ⟨other,front,last',back,roomy,place,cut,-⟩
    · rw [if_pos rfl,if_pos rfl]
      rw [← same₂] at walk
      refine (appendRecord_agree careful walk.wf walk.not_dev filled _).bind fun x y d₄ equal => ?_
      rw [equal]
      exact .pure_intro rfl
    · rw [if_neg other,if_neg other]
      have limit := ((tailored located whole).1 front last' back roomy cut.space).2
      have short : last'.name.length ≤ 255 := (roomy.split ▸ walk).at.name_le
      refine (insertRecord_agree careful cut.wf cut.not_dev filled ?_).bind fun x y d₄ equal => ?_
      · rw [roomy.rest place short]
        omega
      · rw [equal]
        exact .pure_intro rfl

theorem fillRecord_overruns (plain : 0 ∉ name) (open' : ¬(name.length ≤ 254 ∨ de 263 = 0)) (inum : UInt32) (d : Dev) :
    fillRecord de (cstring name) inum d = .error .outOfBounds := by
  cases ran : fillRecord de (cstring name) inum d with
  | ok result => exact absurd ((fillRecord_meets plain de inum d).result ran).2.2.1 open'
  | error e =>
    simp only [fillRecord] at ran
    cases length : strlen (fun i => strncpy de 8 (cstring name) maxName (8 + i)) (direntSize.toNat - 8) with
    | some len =>
      rw [length] at ran
      cases ran
    | none =>
      rw [length] at ran
      exact ran.symm

theorem dirlink_ends (careful : Careful fs.recycle) (walk : Walk fs dp (obs d) recs) (plain : 0 ∉ name)
    (tailored : Tailored recs (content dp (obs d)) dp.size.toNat name) :
    ¬Overruns fs dp (cstring name) inum de lookupDe lookupName d := by
  rintro ⟨dp₁,d₁,⟨off,de₁,dp₂⟩,d₂,looked,searched,overrun⟩
  obtain ⟨result,kept,whole⟩ := (dirlookup_meets careful walk plain lookupDe lookupName).result looked
  obtain ⟨absent,rfl⟩ := Prod.mk.inj result
  have located : locate Rec.len (Rec.accepts name) 0 recs = none := Option.map_eq_none_iff.mp absent.symm
  obtain ⟨cut,append⟩ := tailored located (whole located)
  obtain ⟨-,-,outcome⟩ := (search_meets careful walk kept de).result searched
  have stopped := fillRecord_meets plain de₁ inum d₂
  rw [Meets,overrun] at stopped
  apply stopped
  rcases outcome with ⟨-,-,tight,byte⟩ | ⟨-,front,last,back,roomy,-,space,byte⟩
  · dsimp only at byte
    rw [byte]
    exact append tight _
  · dsimp only at byte
    rw [byte]
    exact (cut front last back roomy space.space).1

/-- A link of a name that is not there gets to the search for space. -/
theorem dirlookup_absent (careful : Careful fs.recycle) (walk : Walk fs dp (obs d) recs) (plain : 0 ∉ name)
    (absent : locate Rec.len (Rec.accepts name) 0 recs = none) (whole : span Rec.len recs = dp.size.toNat)
    (lookupDe lookupName : Memory) :
    ∃ d₁, dirlookup fs dp (cstring name) lookupDe lookupName d = .ok ((none,dp),d₁) ∧ obs d₁ = obs d := by
  obtain ⟨x,d₁,ran,rfl,kept,-⟩ :=
    (dirlookup_meets careful walk plain lookupDe lookupName).returns (fun _ stopped => stopped.2.2 whole)
  rw [absent] at ran
  exact ⟨d₁,ran,kept⟩

theorem dirlink_stores (careful : Careful fs.recycle) (walk : Walk fs dp (obs d) recs) (plain : 0 ∉ name)
    (absent : locate Rec.len (Rec.accepts name) 0 recs = none) (whole : span Rec.len recs = dp.size.toNat)
    (roomy : Roomy recs front last back) (space : span Rec.len front + (9 + last.name.length) + 264 ≤ dp.size.toNat)
    (ends : name.length ≤ 254 ∨ content dp (obs d) (span Rec.len front + (9 + last.name.length) + 263) = 0)
    (long : 264 + (9 + last.name.length) < last.len) (inum : UInt32) (de lookupDe lookupName : Memory) :
    Meets (dirlink fs dp (cstring name) inum de lookupDe lookupName) d
      (fun x d' => content x.2 (obs d') (span Rec.len front + (9 + last.name.length) + 264) = de 264) (fun _ => False) := by
  obtain ⟨d₁,looked,kept⟩ := dirlookup_absent careful walk plain absent whole lookupDe lookupName
  refine .step looked ?_
  refine ((search_meets careful walk kept de).excuse ?_).bind ?_
  · intro e stopped
    obtain ⟨front',last',back',roomy',cramped⟩ := stopped whole
    obtain ⟨rfl,rfl,rfl⟩ := roomy.unique roomy'
    omega
  · intro x d₂ outcome
    obtain ⟨off,de₁,dp₁⟩ := x
    obtain ⟨rfl,behind,found⟩ := outcome
    dsimp only at found behind ⊢
    rcases found with ⟨-,-,tight,-⟩ | ⟨other,front',last',back',roomy',place,cut,byte⟩
    · exact absurd tight roomy.not_tight
    · obtain ⟨rfl,rfl,rfl⟩ := roomy.unique roomy'
      have fits := cut.space
      rw [← byte] at ends
      refine ((fillRecord_meets plain de₁ inum d₂).excuse (fun _ stopped => stopped ends)).bind ?_
      intro de₂ d₃ record
      obtain ⟨rfl,filled,-,rest⟩ := record
      have limit : (name.take 255).length ≤ 255 := by
        rw [List.length_take]
        omega
      rw [if_neg other]
      refine (insertRecord_meets careful (roomy.split ▸ walk) roomy.spacious cut place limit filled).bind ?_
      intro dp₂ d₄ inserted
      obtain ⟨-,-,-,bytes⟩ := inserted
      refine .pure_intro ?_
      rw [← place,bytes 264 (by omega),Dirent.setRecLen,poke_outside _ _ _ _ (by omega),rest 264 (Nat.le_refl _),
        behind 264 (Nat.le_refl _)]

theorem sameRecord_update (de : Memory) (v : UInt8) : SameRecord de (update de 264 v) :=
  fun _ inside => update_of_ne (Nat.ne_of_lt inside) _ _

theorem not_confined {α : Type} {f : Memory → K α} (seen : α → Dev → UInt8)
    (stores : ∀ de, Meets (f de) d (fun x d' => seen x d' = de 264) (fun _ => False)) :
    ¬∀ de de₂, SameRecord de de₂ → f de d = f de₂ d := by
  intro confined
  have equal := confined _ _ (sameRecord_update (fun _ => 0) 1)
  obtain ⟨x,d',ran,zero⟩ := (stores fun _ => 0).returns (fun _ stopped => stopped)
  rw [ran] at equal
  have one := (stores _).result equal.symm
  rw [zero,update_self] at one
  exact absurd one (by decide)

theorem LinkConfined.tailored (confined : LinkConfined fs dp (cstring name) inum lookupDe lookupName d)
    (careful : Careful fs.recycle) (walk : Walk fs dp (obs d) recs) (plain : 0 ∉ name) :
    Tailored recs (content dp (obs d)) dp.size.toNat name := by
  intro absent whole
  obtain ⟨d₁,looked,kept⟩ := dirlookup_absent careful walk plain absent whole lookupDe lookupName
  refine ⟨fun front last back roomy space => ?_,fun tight v => ?_⟩
  · have ends : name.length ≤ 254 ∨ content dp (obs d) (span Rec.len front + (9 + last.name.length) + 263) = 0 := by
      by_contra open'
      obtain ⟨x,d₂,searched,-,-,found⟩ := (search_meets careful walk kept fun _ => 0).returns (fun _ stopped => by
        obtain ⟨front',last',back',roomy',cramped⟩ := stopped whole
        obtain ⟨rfl,rfl,rfl⟩ := roomy.unique roomy'
        omega)
      rcases found with ⟨-,-,tight,-⟩ | ⟨-,front',last',back',roomy',-,-,byte⟩
      · exact roomy.not_tight tight
      · obtain ⟨rfl,rfl,rfl⟩ := roomy.unique roomy'
        rw [← byte] at open'
        exact confined.ends _ ⟨dp,d₁,x,d₂,looked,searched,fillRecord_overruns plain open' inum d₂⟩
    refine ⟨ends,?_⟩
    by_contra long
    exact not_confined _ (fun de => dirlink_stores careful walk plain absent whole roomy space ends (by omega) inum de
      lookupDe lookupName) confined.same
  · by_contra open'
    obtain ⟨x,d₂,searched,-,-,found⟩ := (search_meets careful walk kept fun _ => v).returns (fun _ stopped => by
      obtain ⟨_,_,_,roomy,-⟩ := stopped whole
      exact roomy.not_tight tight)
    rcases found with ⟨-,-,-,byte⟩ | ⟨-,_,_,_,roomy,-⟩
    · rw [← byte] at open'
      exact confined.ends _ ⟨dp,d₁,x,d₂,looked,searched,fillRecord_overruns plain open' inum d₂⟩
    · exact roomy.not_tight tight

theorem linkConfined_iff (careful : Careful fs.recycle) (walk : Walk fs dp (obs d) recs) (plain : 0 ∉ name) :
    LinkConfined fs dp (cstring name) inum lookupDe lookupName d ↔ Tailored recs (content dp (obs d)) dp.size.toNat name := by
  refine ⟨fun confined => confined.tailored careful walk plain,fun tailored => ⟨?_,?_⟩⟩
  · exact fun _ _ same => dirlink_same careful walk plain tailored same
  · exact fun _ => dirlink_ends careful walk plain tailored

theorem unlinkConfined_iff (careful : Careful fs.recycle) (walk : Walk fs dp (obs d) (front ++ last :: back))
    (place : off.toNat = span Rec.len front) (de1 : Memory) : UnlinkConfined fs dp off de1 d ↔ last.len ≤ 264 := by
  have total := walk.span_le
  rw [span_append,span_cons] at total
  have near := walk.near
  rw [nearBytes_eq] at near
  constructor
  · intro confined
    by_contra long
    refine not_confined (fun dp' d' => content dp' (obs d') (off.toNat + 264)) (fun de => ?_) confined
    refine (walk.read careful rfl place de1 _).bind ?_
    intro x d₁ outcome
    obtain ⟨de₁,dp₁⟩ := x
    obtain ⟨rfl,-,stored,-,same⟩ := outcome
    have count : (Dirent.recLen de₁).toNat = last.len := stored.recLen_toNat
    rw [← same] at walk
    refine (writeRecord_meets careful walk.toDense (by omega) _ _).mono ?_ fun _ stopped => stopped
    intro dp₂ d₂ outcome
    obtain ⟨rfl,-,written⟩ := outcome
    rw [written _ (by rw [nearBytes_eq]; omega),poke_inside _ _ _ _ (by omega),Dirent.setRecLen,poke_outside _ _ _ _ (by omega)]
    exact poke_outside _ _ _ _ (by change _ ∨ 0 + 264 ≤ _; omega)
  · intro short de de₂ same
    have read : Meets (readRecord fs dp de1 off "dirlookup read") d _ (fun _ => False) := walk.read careful rfl place de1 _
    apply Agree.eq
    refine ((Agree.refl _ d).meets read).bind fun x y d₁ both => ?_
    obtain ⟨de₁,dp₁⟩ := x
    obtain ⟨rfl,rfl,-,stored,-⟩ := both
    have count : (Dirent.recLen de₁).toNat = last.len := stored.recLen_toNat
    have cleared : SameRecord (poke de 0 direntSize.toNat fun _ => 0) (poke de₂ 0 direntSize.toNat fun _ => 0) :=
      fun j inside => poke_congr (same j inside)
    dsimp only
    rw [(cleared.setRecLen _).written walk.not_dev (by omega)]
    exact .refl _ d₁

end

/-- In every directory of the format, and in those made of them, a link reads and stores only bytes of its record exactly when
the name ends in it and at most 264 bytes are left behind the name of the record it cuts off, and an unlink when the record it
removes has at most 264 bytes. -/
theorem directory_writes_confined_iff {fs : Mount} (careful : Careful fs.recycle) {dp : Inode} {d : Dev}
    (reached : Reachable fs dp d) :
    (∃ recs, Walk fs dp (obs d) recs) ∧ ∀ recs, Walk fs dp (obs d) recs →
      (∀ name, 0 ∉ name → ∀ inum lookupDe lookupName,
        LinkConfined fs dp (cstring name) inum lookupDe lookupName d ↔ Tailored recs (content dp (obs d)) dp.size.toNat name) ∧
      ∀ front r back, recs = front ++ r :: back → ∀ off : UInt32, off.toNat = span Rec.len front →
        ∀ de1, UnlinkConfined fs dp off de1 d ↔ r.len ≤ 264 := by
  refine ⟨reached.walk careful,fun recs walk => ⟨?_,?_⟩⟩
  · intro name plain inum lookupDe lookupName
    exact linkConfined_iff careful walk plain
  · intro front r back split off place de1
    subst split
    exact unlinkConfined_iff careful walk place de1

instance (r : Rec) (off : Nat) : Decidable (r.Spacious off) := inferInstanceAs (Decidable (_ ∧ _))

/-- The link of `b` finds 264 bytes behind `abc`, and `x` has a short record. -/
theorem directory_writes_confined_abc :
    Reachable stillMount (listed 2048)
      (cold (listing [⟨1,[46],1760⟩,⟨4,[120],12⟩,⟨5,[97,98,99],276⟩] [])) ∧
    LinkConfined stillMount (listed 2048) (cstring [98]) 7 garbage garbage
      (cold (listing [⟨1,[46],1760⟩,⟨4,[120],12⟩,⟨5,[97,98,99],276⟩] [])) ∧
    UnlinkConfined stillMount (listed 2048) 1760 garbage
      (cold (listing [⟨1,[46],1760⟩,⟨4,[120],12⟩,⟨5,[97,98,99],276⟩] [])) := by
  have dense := listed_dense (show (2048 : UInt32).toNat ≤ 2 * bsize by decide) [⟨1,[46],1760⟩,⟨4,[120],12⟩,⟨5,[97,98,99],276⟩] []
  have stored : Along Rec.len (fun off r => r.At (content (listed 2048) (obs (cold
      (listing [⟨1,[46],1760⟩,⟨4,[120],12⟩,⟨5,[97,98,99],276⟩] [])))) off) 0
      [⟨1,[46],1760⟩,⟨4,[120],12⟩,⟨5,[97,98,99],276⟩] := by decide +kernel
  generalize cold (listing [⟨1,[46],1760⟩,⟨4,[120],12⟩,⟨5,[97,98,99],276⟩] []) = d at dense stored ⊢
  have reached : Reachable stillMount (listed 2048) d := .valid ⟨dense,rfl,rfl,stored,by decide⟩
  have walk : Walk stillMount (listed 2048) (obs d) [⟨1,[46],1760⟩,⟨4,[120],12⟩,⟨5,[97,98,99],276⟩] :=
    ⟨dense,rfl,stored,by decide,.inl rfl⟩
  have last : Roomy [⟨1,[46],1760⟩,⟨4,[120],12⟩,⟨5,[97,98,99],276⟩] [⟨1,[46],1760⟩,⟨4,[120],12⟩] ⟨5,[97,98,99],276⟩ [] :=
    ⟨rfl,by decide,by decide⟩
  obtain ⟨link,unlink⟩ := (directory_writes_confined_iff never_careful reached).2 _ walk
  refine ⟨reached,(link [98] (by decide) _ _ _).mpr ?_,(unlink [⟨1,[46],1760⟩] ⟨4,[120],12⟩ _ rfl _ rfl _).mpr (by decide)⟩
  refine fun _ _ => ⟨fun front r back roomy _ => ?_,fun _ _ => .inl (by decide)⟩
  obtain ⟨rfl,rfl,rfl⟩ := last.unique roomy
  exact ⟨.inl (by decide),by decide⟩

/-- The record of `x` has the rest of the block, as a directory of the format has it. Whatever is behind the record on
the stack, a link of `b` and an unlink of `x` store it. -/
theorem directory_writes_stack :
    Valid stillMount (listed 2048) (obs (cold (listing [⟨1,[46],12⟩,⟨5,[120],2036⟩] [])))
      [⟨1,[46],12⟩,⟨5,[120],2036⟩] ∧
    (∀ de : Memory, ∃ x d', dirlink stillMount (listed 2048) (cstring [98]) 7 de garbage garbage
        (cold (listing [⟨1,[46],12⟩,⟨5,[120],2036⟩] [])) = .ok (x,d') ∧
      content x.2 (obs d') (22 + 264) = de 264) ∧
    ¬LinkConfined stillMount (listed 2048) (cstring [98]) 7 garbage garbage
      (cold (listing [⟨1,[46],12⟩,⟨5,[120],2036⟩] [])) ∧
    ¬UnlinkConfined stillMount (listed 2048) 12 garbage
      (cold (listing [⟨1,[46],12⟩,⟨5,[120],2036⟩] [])) := by
  have valid : Valid stillMount (listed 2048) (obs (cold (listing [⟨1,[46],12⟩,⟨5,[120],2036⟩] [])))
      [⟨1,[46],12⟩,⟨5,[120],2036⟩] := ⟨listed_dense (by decide) _ _,rfl,rfl,by decide +kernel,by decide⟩
  generalize cold (listing [⟨1,[46],12⟩,⟨5,[120],2036⟩] []) = d at valid ⊢
  have walk : Walk stillMount (listed 2048) (obs d) [⟨1,[46],12⟩,⟨5,[120],2036⟩] :=
    ⟨valid.toDense,rfl,valid.stored,by decide,.inl rfl⟩
  have roomy : Roomy [⟨1,[46],12⟩,⟨5,[120],2036⟩] [⟨1,[46],12⟩] ⟨5,[120],2036⟩ [] := ⟨rfl,by decide,by decide⟩
  have stores (de : Memory) := dirlink_stores never_careful walk (show (0 : UInt8) ∉ [98] by decide) (by decide) rfl roomy
    (by decide) (.inl (by decide)) (by decide) 7 de garbage garbage
  refine ⟨valid,fun de => ?_,fun confined => not_confined _ stores confined.same,?_⟩
  · obtain ⟨x,d',ran,byte⟩ := (stores de).returns (fun _ stopped => stopped)
    exact ⟨x,d',ran,byte⟩
  · rw [unlinkConfined_iff never_careful (roomy.split ▸ walk) rfl]
    decide

end Xv6Ext2.Ext2
