import Xv6Ext2.Ext2.DirMap

/-! Directories as the format has them, whoever wrote them: when the functions of the driver get through
them, and when a link keeps their entries. -/
namespace Xv6Ext2.Ext2
open Lib Bio

/-- A directory of the format: its blocks are tiled by the records. -/
structure Valid (fs : Mount) (dp : Inode) (o : Obs) (recs : List Rec) : Prop extends Dense fs dp o where
  aligned : dp.size.toNat % bsize = 0
  size : dp.size.toNat = span Rec.len recs
  stored : Along Rec.len (fun off r => r.At (content dp o) off) 0 recs
  tiled : Along Rec.len (fun off r => r.len % 4 = 0 ∧ 8 + r.name.length ≤ r.len ∧ off % bsize + r.len ≤ bsize) 0 recs

section

variable {fs : Mount} {dp dp' : Inode} {o : Obs} {d d' : Dev} {recs front back front' back' : List Rec} {last last' : Rec}
  {name : List UInt8} {inum : UInt32}

theorem exists_readable {off size : Nat} (space : Along Rec.len (fun _ r => 8 + r.name.length ≤ r.len) off recs)
    (total : off + span Rec.len recs = size) :
    ∃ front back, recs = front ++ back ∧ Along Rec.len (fun pos _ => pos + 264 ≤ size) off front ∧
      (back = [] ∨ off + span Rec.len front < size ∧ size < off + span Rec.len front + 264) := by
  induction recs generalizing off with
  | nil => exact ⟨[],[],rfl,trivial,.inl rfl⟩
  | cons r recs ih =>
    rw [span_cons] at total
    by_cases readable : off + 264 ≤ size
    · obtain ⟨front,back,rfl,fits,ends⟩ := ih space.2 (by omega)
      refine ⟨r :: front,back,rfl,⟨readable,fits⟩,ends.imp_right fun last => ?_⟩
      rw [span_cons]
      omega
    · have positive := space.1
      exact ⟨[],r :: recs,rfl,trivial,.inr (by rw [span_nil]; omega)⟩

theorem Valid.spaces (valid : Valid fs dp o recs) : Along Rec.len (fun _ r => 8 + r.name.length ≤ r.len) 0 recs :=
  valid.tiled.mono (fun _ _ _ _ tile => tile.2.1)

theorem Valid.walk (valid : Valid fs dp o recs) : ∃ front back, recs = front ++ back ∧ Walk fs dp o front := by
  obtain ⟨front,back,rfl,readable,ends⟩ := exists_readable valid.spaces (show 0 + span Rec.len recs = dp.size.toNat by
    rw [Nat.zero_add,valid.size])
  refine ⟨front,back,rfl,valid.toDense,valid.aligned,(along_append.mp valid.stored).1,
    (along_append.mp valid.spaces).1.and readable,?_⟩
  rcases ends with rfl | ends
  · left
    rw [valid.size,List.append_nil]
  · right
    rwa [Nat.zero_add] at ends

theorem nil_of_span {off : Nat} (space : Along Rec.len (fun _ r => 8 + r.name.length ≤ r.len) off recs)
    (none : span Rec.len recs = 0) : recs = [] := by
  have length := space.length_le (fun _ _ room => by omega)
  exact List.eq_nil_of_length_eq_zero (by omega)

theorem Roomy.unique (roomy : Roomy recs front last back) (roomy' : Roomy recs front' last' back') :
    front = front' ∧ last = last' ∧ back = back' := by
  have same := roomy.split.symm.trans roomy'.split
  have first {f f' more : List Rec} {r : Rec} (longer : f' = f ++ r :: more)
      (tight : Along Rec.len (fun off r => ¬r.Spacious off) 0 f') : ¬r.Spacious (span Rec.len f) := by
    rw [longer] at tight
    have here := (along_append.mp tight).2.1
    rwa [Nat.zero_add] at here
  rcases List.append_eq_append_iff.mp same with ⟨more,longer,rest⟩ | ⟨more,longer,rest⟩
  · cases more with
    | nil =>
      rw [List.append_nil] at longer
      obtain ⟨rfl,rfl⟩ := List.cons.inj rest
      exact ⟨longer.symm,rfl,rfl⟩
    | cons r more =>
      obtain ⟨rfl,-⟩ := List.cons.inj rest
      exact absurd roomy.spacious (first longer roomy'.tight)
  · cases more with
    | nil =>
      rw [List.append_nil] at longer
      obtain ⟨rfl,rfl⟩ := List.cons.inj rest
      exact ⟨longer,rfl,rfl⟩
    | cons r more =>
      obtain ⟨rfl,-⟩ := List.cons.inj rest
      exact absurd roomy'.spacious (first longer roomy.tight)

theorem Roomy.not_tight (roomy : Roomy recs front last back) : ¬Along Rec.len (fun off r => ¬r.Spacious off) 0 recs := by
  intro tight
  rw [roomy.split] at tight
  have here := (along_append.mp tight).2.1
  rw [Nat.zero_add] at here
  exact here roomy.spacious

theorem Linked.find_kept {size size' : Nat} {recs' : List Rec} (linked : Linked recs size inum name recs' size')
    (behind : ∀ front last back, Roomy recs front last back → back = []) {other : List UInt8} {r : Rec}
    (found : recs.find? (Rec.accepts other) = some r) : ∃ r', recs'.find? (Rec.accepts other) = some r' ∧ r'.inum = r.inum := by
  cases linked with
  | append tight => exact ⟨r,by rw [List.find?_append,found]; rfl,rfl⟩
  | @insert front last back roomy readable =>
    obtain rfl := behind front last back roomy
    rw [roomy.split,List.find?_append] at found
    rw [inserted,List.find?_append]
    cases before : front.find? (Rec.accepts other) with
    | some r₁ =>
      rw [before] at found
      exact ⟨r₁,rfl,congrArg Rec.inum (Option.some.inj found)⟩
    | none =>
      rw [before,Option.none_or,List.find?_cons] at found
      rw [Option.none_or,List.find?_cons]
      have same : Rec.accepts other {last with len := 9 + last.name.length} = Rec.accepts other last := rfl
      rw [same]
      cases accepted : Rec.accepts other last with
      | true =>
        rw [accepted] at found
        obtain rfl : last = r := Option.some.inj found
        exact ⟨_,rfl,rfl⟩
      | false =>
        rw [accepted] at found
        cases found

theorem Linked.size_ge {size' : Nat} {recs' : List Rec} (linked : Linked recs (span Rec.len recs) inum name recs' size')
    (behind : ∀ front last back, Roomy recs front last back → back = []) : span Rec.len recs ≤ size' := by
  cases linked with
  | append tight => exact Nat.le_add_right _ _
  | @insert front last back roomy readable =>
    obtain rfl := behind front last back roomy
    rw [roomy.split,span_append,span_cons,span_nil]
    omega

/-- The size has not become smaller, and whatever `ext2_dirlookup` finds in state `d` it finds in state `d'`. -/
def Keeps (fs : Mount) (dp dp' : Inode) (d d' : Dev) : Prop :=
  dp.size.toNat ≤ dp'.size.toNat ∧ ∀ name, 0 ∉ name → ∀ ino off dp₁ d₁ de fname,
    dirlookup fs dp (cstring name) de fname d = .ok ((some (ino,off),dp₁),d₁) →
    ∀ de' fname', ∃ off' dp₂ d₂, dirlookup fs dp' (cstring name) de' fname' d' = .ok ((some (ino,off'),dp₂),d₂)

theorem Walk.lookup_iff (careful : Careful fs.recycle) (walk : Walk fs dp (obs d) recs) (plain : 0 ∉ name) {ino : UInt32}
    (de fname : Memory) :
    (∃ off dp₁ d₁, dirlookup fs dp (cstring name) de fname d = .ok ((some (ino,off),dp₁),d₁)) ↔
      ∃ r, recs.find? (Rec.accepts name) = some r ∧ r.inum = ino := by
  have meets := dirlookup_meets careful walk plain de fname
  have first : (locate Rec.len (Rec.accepts name) 0 recs).map Prod.fst = recs.find? (Rec.accepts name) := locate_fst 0 recs
  cases located : locate Rec.len (Rec.accepts name) 0 recs with
  | none =>
    rw [located] at meets first
    refine iff_of_false ?_ ?_
    · rintro ⟨off,dp₁,d₁,ran⟩
      have result := (meets.result ran).1
      cases result
    · rintro ⟨r,found,-⟩
      rw [← first] at found
      cases found
  | some hit =>
    rw [located] at meets first
    obtain ⟨x,d₁,ran,rfl,-⟩ := meets.returns (fun _ stopped => absurd stopped.2.1 (Option.some_ne_none _))
    rw [← first]
    constructor
    · rintro ⟨off,dp₁,d₂,again⟩
      rw [ran] at again
      cases again
      exact ⟨hit.1,rfl,rfl⟩
    · rintro ⟨r,found,rfl⟩
      cases found
      exact ⟨_,_,_,ran⟩

end

instance (r : Rec) (bytes : Memory) (off : Nat) : Decidable (r.At bytes off) :=
  decidable_of_iff (u32 bytes off = r.inum ∧ (u16 bytes (off + 4)).toNat = r.len ∧
      (bytes (off + 6)).toNat = r.name.length ∧ ∀ i < r.name.length, bytes (off + 8 + i) = cstring r.name i)
    ⟨fun ⟨inode,recLen,nameLen,name⟩ => ⟨inode,recLen,nameLen,name⟩,fun stored =>
      ⟨stored.inode,stored.recLen,stored.nameLen,stored.name⟩⟩

/-- The records of a block, behind one another from `off` on. -/
def blockOf : Nat → List Rec → Block
  | _, [] => Bytes.zero bsize
  | off, r :: recs => ((((blockOf (off + r.len) recs).setU32 off r.inum).setU16 (off + 4) (UInt16.ofNat r.len)).patch (off + 6) 1
      (fun _ => UInt8.ofNat r.name.length)).patch (off + 8) r.name.length (cstring r.name)

def listing (first second : List Rec) : Blockno → Block := fun b =>
  if b = 4 then (((Bytes.zero bsize).setBit 0).setBit 1).setBit 2
  else if b = 5 then blockOf 0 first
  else if b = 6 then blockOf 0 second
  else bare b

def listed (size : UInt32) : Inode := ⟨1,.dir,0,1,size,fun i => if i = 0 then 5 else if i = 1 then 6 else 0⟩

theorem listed_ptr {size : UInt32} {o : Obs} {σ : Place} (within : σ.Within driverDepth) (there : ptr (listed size) o σ ≠ 0) :
    σ = ⟨0,[]⟩ ∧ ptr (listed size) o σ = 5 ∨ σ = ⟨1,[]⟩ ∧ ptr (listed size) o σ = 6 := by
  have root := root_ne_zero there
  obtain ⟨i,path⟩ := σ
  have few : ∀ i, (listed size).addrs i ≠ 0 → i = 0 ∨ i = 1 := by
    intro i
    simp only [listed]
    split_ifs with zero one <;> simp_all
  rcases few i root with rfl | rfl
  · obtain rfl := List.eq_nil_of_length_eq_zero (Nat.le_zero.mp within)
    exact .inl ⟨rfl,rfl⟩
  · obtain rfl := List.eq_nil_of_length_eq_zero (Nat.le_zero.mp within)
    exact .inr ⟨rfl,rfl⟩

theorem listed_wf (size : UInt32) (first second : List Rec) :
    Wf stillMount driverDepth (listed size) (obs (cold (listing first second))) := by
  have bitmap : bitmapOf stillMount (obs (cold (listing first second))) 1 = 4 :=
    show bitmapOf stillMount (obs (cold bare)) 1 = 4 by decide +kernel
  have table : tableOf stillMount (obs (cold (listing first second))) 1 = 3 :=
    show tableOf stillMount (obs (cold bare)) 1 = 3 by decide +kernel
  have fresh (z : Nat) (clear : Clear stillMount (obs (cold (listing first second))) 1 z) (b : UInt32)
      (small : b.toNat ≤ 6) : (4 : UInt32) + UInt32.ofNat z ≠ b := by
    obtain ⟨-,inside,clear⟩ := clear
    rw [bitmap] at clear
    have taken : ∀ z < 3, bit ((((Bytes.zero bsize).setBit 0).setBit 1).setBit 2).byte z = true := by decide +kernel
    have large : 3 ≤ z := by
      by_contra less
      exact absurd ((taken z (by omega)).symm.trans clear) (by decide)
    simp only [bsize] at inside
    rintro rfl
    rw [UInt32.toNat_add,UInt32.toNat_ofNat',Nat.mod_eq_of_lt (show z < 2 ^ 32 by omega),
      Nat.mod_eq_of_lt (show (4 : UInt32).toNat + z < 2 ^ 32 by change 4 + z < _; omega)] at small
    change 4 + z ≤ 6 at small
    omega
  have number : (listed size).inum = 1 := rfl
  refine ⟨show groupNo stillMount 1 < 64 by decide,fun _ => rfl,by rw [number,bitmap]; decide,
    by rw [number,bitmap,table]; decide,?_,?_,?_⟩
  · intro σ τ withinσ withinτ there same
    rcases listed_ptr withinσ there with ⟨rfl,first⟩ | ⟨rfl,first⟩ <;>
    rcases listed_ptr withinτ (same ▸ there) with ⟨rfl,second⟩ | ⟨rfl,second⟩ <;>
    first
      | rfl
      | exact absurd (first.symm.trans (same.trans second)) (by decide)
  · intro σ within there
    rw [Reserved,number,bitmap,table]
    rcases listed_ptr within there with ⟨-,value⟩ | ⟨-,value⟩ <;> rw [value] <;> decide
  · intro z clear
    rw [number] at clear
    simp only [number,Reserved,bitmap,table,not_or]
    refine ⟨fresh z clear 0 (by decide),⟨fresh z clear 1 (by decide),fresh z clear 4 (by decide),fresh z clear 3 (by decide)⟩,?_⟩
    intro σ within same
    have there : ptr (listed size) (obs (cold (listing first second))) σ ≠ 0 := by
      rw [same]
      exact fresh z clear 0 (by decide)
    rcases listed_ptr within there with ⟨-,value⟩ | ⟨-,value⟩
    · exact fresh z clear 5 (by decide) (same.symm.trans value)
    · exact fresh z clear 6 (by decide) (same.symm.trans value)

theorem listed_dense {size : UInt32} (two : size.toNat ≤ 2 * bsize) (first second : List Rec) :
    Dense stillMount (listed size) (obs (cold (listing first second))) where
  dir := rfl
  wf := listed_wf size first second
  near := by
    change size.toNat ≤ _
    rw [nearBytes_eq]
    simp only [bsize] at two
    omega
  mapped x inside := by
    have blocks : x / bsize < 2 := Nat.div_lt_of_lt_mul (by change x < size.toNat at inside; omega)
    generalize x / bsize = bn at blocks
    interval_cases bn
    · exact show (5 : UInt32) ≠ 0 by decide
    · exact show (6 : UInt32) ≠ 0 by decide

/-- A link keeps the size and the entries exactly when the first record that can be cut off, if there is one, is the
last record of the directory. -/
theorem dirlink_keeps_entries_iff {fs : Mount} (careful : Careful fs.recycle) {dp dp' : Inode} {d d' : Dev} {recs : List Rec}
    (valid : Valid fs dp (obs d) recs) (small : dp.size.toNat < nearBlocks * bsize) {name : List UInt8} (plain : 0 ∉ name)
    {inum : UInt32} {de lookupDe lookupName : Memory}
    (ran : dirlink fs dp (cstring name) inum de lookupDe lookupName d = .ok ((0,dp'),d')) :
    Keeps fs dp dp' d d' ↔ ∀ front last back, Roomy recs front last back → back = [] := by
  obtain ⟨front,back,rfl,walk⟩ := valid.walk
  have meets := dirlink_meets careful walk plain small inum de lookupDe lookupName
  obtain ⟨⟨⟩,-⟩ | ⟨-,-,whole,-,recs',linked,walk'⟩ := meets.result ran
  -- the search for the name has seen all records
  have size := valid.size
  rw [span_append] at size
  obtain rfl := nil_of_span (along_append.mp valid.spaces).2 (by omega)
  rw [List.append_nil] at valid ⊢
  rw [← whole] at linked
  constructor
  · rintro ⟨larger,-⟩ front' last' back' roomy
    have spaces := valid.spaces
    generalize dp'.size.toNat = size' at linked larger
    cases linked with
    | append tight => exact absurd tight roomy.not_tight
    | @insert front₁ last₁ back₁ roomy₁ readable =>
      obtain ⟨rfl,rfl,rfl⟩ := roomy.unique roomy₁
      rw [roomy.split,span_append,span_cons] at whole
      rw [roomy.split] at spaces
      exact nil_of_span (along_append.mp spaces).2.2 (by omega)
  · intro behind
    refine ⟨by rw [← whole]; exact linked.size_ge behind,fun other plain' ino off dp₁ d₁ de₁ fname found de₂ fname' => ?_⟩
    obtain ⟨r,first,rfl⟩ := (walk.lookup_iff careful plain' de₁ fname).mp ⟨off,dp₁,d₁,found⟩
    exact (walk'.lookup_iff careful plain' de₂ fname').mpr (linked.find_kept behind first)

/-- The directory with only `.` takes a second name. -/
theorem dirlink_keeps_dot : ∃ dp' d',
    dirlink stillMount (listed 2048) (cstring [98]) 7 garbage garbage garbage
      (cold (listing [⟨1,[46],2048⟩] [])) = .ok ((0,dp'),d') ∧
    Keeps stillMount (listed 2048) dp' (cold (listing [⟨1,[46],2048⟩] [])) d' := by
  have valid : Valid stillMount (listed 2048) (obs (cold (listing [⟨1,[46],2048⟩] []))) [⟨1,[46],2048⟩] :=
    ⟨listed_dense (by decide) _ _,rfl,rfl,by decide +kernel,by decide⟩
  have seen : probe (dirlink stillMount (listed 2048) (cstring [98]) 7 garbage garbage garbage)
      (cold (listing [⟨1,[46],2048⟩] [])) (fun x _ => some x.1) = some 0 := by decide +kernel
  obtain ⟨⟨ret,dp'⟩,d',ran,returned⟩ := probe_eq_some seen
  obtain rfl : ret = 0 := Option.some.inj returned
  refine ⟨dp',d',ran,?_⟩
  generalize cold (listing [⟨1,[46],2048⟩] []) = d at ran valid ⊢
  refine (dirlink_keeps_entries_iff never_careful valid (by decide) (by decide) ran).mpr ?_
  intro front last back roomy
  have one := congrArg List.length roomy.split
  simp only [List.length_append,List.length_cons,List.length_nil] at one
  exact List.eq_nil_of_length_eq_zero (by omega)

/-- The first block is the unused one of `lost+found`, and `a` is in the second one, which the link of `b` cuts off. -/
theorem dirlink_loses_second_block :
    Valid stillMount (listed 4096) (obs (cold (listing [⟨0,[],2048⟩] [⟨5,[97],2048⟩])))
      [⟨0,[],2048⟩,⟨5,[97],2048⟩] ∧
    ∃ dp' d', dirlink stillMount (listed 4096) (cstring [98]) 7 garbage garbage garbage
        (cold (listing [⟨0,[],2048⟩] [⟨5,[97],2048⟩])) = .ok ((0,dp'),d') ∧
      dp'.size = 2048 ∧
      (∃ dp₁ d₁, dirlookup stillMount (listed 4096) (cstring [97]) garbage garbage
        (cold (listing [⟨0,[],2048⟩] [⟨5,[97],2048⟩])) = .ok ((some (5,2048),dp₁),d₁)) ∧
      (∃ dp₂ d₂, dirlookup stillMount dp' (cstring [97]) garbage garbage d' = .ok ((none,dp₂),d₂)) ∧
      ¬Keeps stillMount (listed 4096) dp' (cold (listing [⟨0,[],2048⟩] [⟨5,[97],2048⟩])) d' := by
  have before : probe (dirlookup stillMount (listed 4096) (cstring [97]) garbage garbage)
      (cold (listing [⟨0,[],2048⟩] [⟨5,[97],2048⟩])) (fun x _ => x.1) = some (5,2048) := by decide +kernel
  have after : probe (dirlink stillMount (listed 4096) (cstring [98]) 7 garbage garbage garbage)
      (cold (listing [⟨0,[],2048⟩] [⟨5,[97],2048⟩]))
      (fun x d' => probe (dirlookup stillMount x.2 (cstring [97]) garbage garbage) d'
        (fun y _ => some (x.1,x.2.size,y.1))) = some (0,2048,none) := by decide +kernel
  obtain ⟨⟨ret,dp'⟩,d',linked,rest⟩ := probe_eq_some after
  obtain ⟨⟨found,dp₂⟩,d₂,missed,values⟩ := probe_eq_some rest
  obtain ⟨⟨found₁,dp₁⟩,d₁,there,entry⟩ := probe_eq_some before
  simp only [Option.some.injEq,Prod.mk.injEq] at values
  obtain ⟨rfl,size,rfl⟩ := values
  dsimp only at entry missed
  subst entry
  refine ⟨⟨listed_dense (by decide) _ _,rfl,rfl,by decide +kernel,by decide⟩,dp',d',linked,size,⟨dp₁,d₁,there⟩,⟨dp₂,d₂,missed⟩,?_⟩
  rintro ⟨larger,-⟩
  rw [size] at larger
  exact absurd larger (by decide)

/-- What happens to a directory: calls that return, with a name that is a string, while the directory has fewer
than 12 + 512 blocks. It begins as any directory of the format. -/
inductive Reachable (fs : Mount) : Inode → Dev → Prop where
  | valid {dp : Inode} {d : Dev} {recs : List Rec} (valid : Valid fs dp (obs d) recs) : Reachable fs dp d
  | link {dp dp' : Inode} {d d' : Dev} {name : List UInt8} {inum : UInt32} {de lookupDe lookupName : Memory} {ret : Int}
    (before : Reachable fs dp d) (plain : 0 ∉ name) (small : dp.size.toNat < nearBlocks * bsize)
    (ran : (DirOp.link name inum de lookupDe lookupName).run fs dp d = .ok ((ret,dp'),d')) : Reachable fs dp' d'
  | unlink {dp dp' : Inode} {d d' : Dev} {name : List UInt8} {de de1 lookupDe lookupName : Memory} {ret : Int}
    (before : Reachable fs dp d) (plain : 0 ∉ name)
    (ran : (DirOp.unlink name de de1 lookupDe lookupName).run fs dp d = .ok ((ret,dp'),d')) : Reachable fs dp' d'

section

variable {fs : Mount} {dp : Inode} {d : Dev} {recs : List Rec} {name : List UInt8}

theorem Reachable.walk (careful : Careful fs.recycle) (reached : Reachable fs dp d) : ∃ recs, Walk fs dp (obs d) recs := by
  induction reached with
  | valid valid =>
    obtain ⟨front,-,-,walk⟩ := valid.walk
    exact ⟨front,walk⟩
  | link before plain small ran ih =>
    obtain ⟨recs,walk⟩ := ih
    have meets := dirlink_meets careful walk plain small
    obtain ⟨-,rfl,same,-⟩ | ⟨-,-,-,-,recs',-,walk'⟩ := (meets _ _ _ _).result ran
    · exact ⟨recs,by rw [same]; exact walk⟩
    · exact ⟨recs',walk'⟩
  | @unlink dp dp' d d' name de de1 lookupDe lookupName ret before plain ran ih =>
    obtain ⟨recs,walk⟩ := ih
    have meets : Meets ((DirOp.unlink name de de1 lookupDe lookupName).run fs dp) d
        (fun x d' => ∃ recs', Walk fs x.2 (obs d') recs') (fun _ => True) := by
      refine ((dirlookup_meets careful walk plain lookupDe lookupName).excuse (fun _ _ => trivial)).bind ?_
      rintro ⟨found,dp₁⟩ d₁ ⟨result,same,-⟩
      obtain ⟨rfl,rfl⟩ := Prod.mk.inj result
      rw [← same] at walk
      cases located : locate Rec.len (Rec.accepts name) 0 recs with
      | none => exact .pure_intro ⟨recs,walk⟩
      | some hit =>
        obtain ⟨r,pos⟩ := hit
        obtain ⟨front,back,rfl,place,-⟩ := locate_eq_some located
        have near := walk.near
        have total := walk.span_le
        rw [nearBytes_eq] at near
        rw [span_append,span_cons] at total
        refine ((unlink_meets careful walk ?_ de de1).excuse (fun _ => False.elim)).bind ?_
        · rw [place,Nat.zero_add,UInt32.toNat_ofNat',Nat.mod_eq_of_lt (by omega)]
        · rintro dp₂ d₂ ⟨rfl,walk₂⟩
          exact .pure_intro ⟨_,walk₂⟩
    exact meets.result ran

def Returns {α : Type} (x : K α) (d : Dev) : Prop := ∃ a d', x d = .ok (a,d')

theorem locate_eq_none_iff : locate Rec.len (Rec.accepts name) 0 recs = none ↔ ∀ r ∈ recs, r.accepts name = false := by
  have first : (locate Rec.len (Rec.accepts name) 0 recs).map Prod.fst = recs.find? (Rec.accepts name) := locate_fst 0 recs
  rw [← Option.map_eq_none_iff,first,List.find?_eq_none]
  simp only [Bool.not_eq_true]

theorem returns_iff {α : Type} {x : K α} {post : α → Dev → Prop} {fail : Fault → Prop} {p : Prop} (meets : Meets x d post fail)
    (good : ∀ a d', post a d' → p) (bad : ∀ e, fail e → ¬p) : Returns x d ↔ p := by
  constructor
  · rintro ⟨a,d',ran⟩
    exact good a d' (meets.result ran)
  · intro holds
    obtain ⟨a,d',ran,-⟩ := meets.returns (fun e failed => bad e failed holds)
    exact ⟨a,d',ran⟩

theorem Walk.lookup_returns_iff (careful : Careful fs.recycle) (walk : Walk fs dp (obs d) recs) (plain : 0 ∉ name)
    (de fname : Memory) : Returns (dirlookup fs dp (cstring name) de fname) d ↔
      (∃ r ∈ recs, r.accepts name = true) ∨ span Rec.len recs = dp.size.toNat := by
  have present : ¬locate Rec.len (Rec.accepts name) 0 recs = none ↔ ∃ r ∈ recs, r.accepts name = true := by
    rw [locate_eq_none_iff]
    simp
  rw [← present,← imp_iff_not_or]
  refine returns_iff (dirlookup_meets careful walk plain de fname) (fun _ _ post => post.2.2) ?_
  rintro e ⟨-,absent,short⟩ whole
  exact short (whole absent)

/-- Where `ext2_dirlink` gets through: at an entry of another inode, or, if there is none for the name, at the end
of the directory with 264 bytes left behind the record that is cut off. -/
def LinkReturns (dp : Inode) (recs : List Rec) (name : List UInt8) : Prop :=
  (∃ found, locate Rec.len (Rec.accepts name) 0 recs = some found ∧ found.1.inum ≠ dp.inum) ∨
    (∀ r ∈ recs, r.accepts name = false) ∧ span Rec.len recs = dp.size.toNat ∧
      ∀ front last back, Roomy recs front last back → span Rec.len front + (9 + last.name.length) + 264 ≤ dp.size.toNat

theorem Walk.link_returns_iff (careful : Careful fs.recycle) (walk : Walk fs dp (obs d) recs) (ok : NameOk name)
    (small : dp.size.toNat < nearBlocks * bsize) (free : 2 ≤ room fs (obs d) dp.inum) (inum : UInt32)
    (de lookupDe lookupName : Memory) :
    Returns (dirlink fs dp (cstring name) inum de lookupDe lookupName) d ↔ LinkReturns dp recs name := by
  have short := ok.short
  rw [LinkReturns,← locate_eq_none_iff]
  refine returns_iff (dirlink_meets careful walk ok.plain small inum de lookupDe lookupName) ?_ ?_
  · rintro ⟨ret,dp'⟩ d' (⟨-,-,-,found⟩ | ⟨-,absent,whole,-,recs',linked,-⟩)
    · exact .inl found
    · refine .inr ⟨absent,whole,fun front last back roomy => ?_⟩
      generalize dp'.size.toNat = size' at linked
      cases linked with
      | append tight => exact absurd tight roomy.not_tight
      | @insert front₁ last₁ back₁ roomy₁ readable =>
        obtain ⟨rfl,rfl,rfl⟩ := roomy.unique roomy₁
        exact readable
  · rintro e (⟨-,found,located,own⟩ | ⟨absent,reason⟩) (⟨found',located',other⟩ | ⟨absent',whole,space⟩)
    · rw [located] at located'
      obtain rfl := Option.some.inj located'
      exact other own
    · rw [located] at absent'
      cases absent'
    · rw [absent] at located'
      cases located'
    · rcases reason with ⟨-,less⟩ | long | ⟨-,front,last,back,roomy,cramped⟩ | few
      · exact less whole
      · omega
      · have fits := space front last back roomy
        omega
      · omega

theorem Walk.empty_returns_iff (careful : Careful fs.recycle) (walk : Walk fs dp (obs d) recs) (de : Memory) :
    Returns (isdirempty fs dp de) d ↔
      ¬Along Rec.len (fun pos r => passes (content dp (obs d)) pos r = true) 0 recs ∨ span Rec.len recs = dp.size.toNat := by
  rw [← imp_iff_not_or]
  refine returns_iff (isdirempty_meets careful walk de) (fun _ _ post => post.2.2) ?_
  rintro e ⟨-,passed,short⟩ whole
  exact short (whole passed)

end

/-- In every directory that can come about, the functions see the records that begin 264 bytes before its end, and they
return exactly when they need not read further. -/
theorem directory_calls_return_iff {fs : Mount} (careful : Careful fs.recycle) {dp : Inode} {d : Dev}
    (reached : Reachable fs dp d) :
    (∃ recs, Walk fs dp (obs d) recs) ∧ ∀ recs, Walk fs dp (obs d) recs →
      (∀ name, NameOk name → ∀ de fname, Returns (dirlookup fs dp (cstring name) de fname) d ↔
        (∃ r ∈ recs, r.accepts name = true) ∨ span Rec.len recs = dp.size.toNat) ∧
      (∀ name, NameOk name → dp.size.toNat < nearBlocks * bsize → 2 ≤ room fs (obs d) dp.inum →
        ∀ inum de lookupDe lookupName,
          Returns (dirlink fs dp (cstring name) inum de lookupDe lookupName) d ↔ LinkReturns dp recs name) ∧
      ∀ de, Returns (isdirempty fs dp de) d ↔
        ¬Along Rec.len (fun pos r => passes (content dp (obs d)) pos r = true) 0 recs ∨ span Rec.len recs = dp.size.toNat := by
  refine ⟨reached.walk careful,fun recs walk => ⟨?_,?_,walk.empty_returns_iff careful⟩⟩
  · intro name ok de fname
    exact walk.lookup_returns_iff careful ok.plain de fname
  · intro name ok small free inum de lookupDe lookupName
    exact walk.link_returns_iff careful ok small free inum de lookupDe lookupName

theorem directory_calls_return_at_dot :
    Reachable stillMount (listed 2048) (cold (listing [⟨1,[46],2048⟩] [])) ∧
    Returns (dirlookup stillMount (listed 2048) (cstring [98]) garbage garbage)
      (cold (listing [⟨1,[46],2048⟩] [])) ∧
    Returns (isdirempty stillMount (listed 2048) garbage) (cold (listing [⟨1,[46],2048⟩] [])) := by
  have dense := listed_dense (show (2048 : UInt32).toNat ≤ 2 * bsize by decide) [⟨1,[46],2048⟩] []
  have stored : Along Rec.len (fun off r => r.At (content (listed 2048) (obs (cold (listing [⟨1,[46],2048⟩] [])))) off) 0
      [⟨1,[46],2048⟩] := by decide +kernel
  generalize cold (listing [⟨1,[46],2048⟩] []) = d at dense stored ⊢
  have reached : Reachable stillMount (listed 2048) d := .valid ⟨dense,rfl,rfl,stored,by decide⟩
  have walk : Walk stillMount (listed 2048) (obs d) [⟨1,[46],2048⟩] :=
    ⟨dense,rfl,stored,by decide,.inl rfl⟩
  obtain ⟨lookup,-,empty⟩ := (directory_calls_return_iff never_careful reached).2 _ walk
  exact ⟨reached,(lookup [98] ⟨by decide,by decide,by decide⟩ _ _).mpr (.inr rfl),(empty _).mpr (.inr rfl)⟩

/-- The record of `x` is the last of the block and is 248 bytes long, so that 264 bytes cannot be read there. -/
theorem dirlookup_panics_at_short_record :
    Reachable stillMount (listed 2048) (cold (listing [⟨1,[46],1800⟩,⟨5,[120],248⟩] [])) ∧
    NameOk [120] ∧
    dirlookup stillMount (listed 2048) (cstring [120]) garbage garbage
      (cold (listing [⟨1,[46],1800⟩,⟨5,[120],248⟩] [])) = .error (.panic "dirlookup read") ∧
    isdirempty stillMount (listed 2048) garbage
      (cold (listing [⟨1,[46],1800⟩,⟨5,[120],248⟩] [])) = .error (.panic "isdirempty: readi") := by
  refine ⟨.valid (show Valid _ _ _ [⟨1,[46],1800⟩,⟨5,[120],248⟩] from ⟨listed_dense (by decide) _ _,rfl,rfl,by decide +kernel,by decide⟩),
    ⟨by decide,by decide,by decide⟩,stopped_eq_some (by decide +kernel),stopped_eq_some (by decide +kernel)⟩

end Xv6Ext2.Ext2
