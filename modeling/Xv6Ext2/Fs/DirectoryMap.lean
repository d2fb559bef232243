import Xv6Ext2.Fs.ByteArrays
import Xv6Ext2.Fs.Directory

/-! A directory over whole runs: a finite map from names, cut off behind 14 bytes, to inode numbers. -/
namespace Xv6Ext2.Fs
open Lib Bio Log Function

/-- A call on a locked directory; the memories `de` are what its functions find on the stack. Between calls
references may be dropped, the directory put and loaded again, and the transaction committed. -/
inductive DirOp where
  | lookup (name de : Nat → UInt8)
  | link (name : Nat → UInt8) (inum : UInt32) (de lookupDe : Nat → UInt8)
  | unlink (name de lookupDe : Nat → UInt8)
  | put (i : UInt32)
  | reload
  | commit

/-- The inode number and the offset of a record that was found, or the value of `dirlink`. -/
inductive DirReply where
  | found (hit : Option (UInt32 × UInt32))
  | linked (ret : Int)
  | done

/-- `dirlookup`, `dirlink`, or `fs_unlink` at the offset that `dirlookup` returns. -/
def DirOp.run (fs : Volume) (dp : UInt32) : DirOp → M DirReply
  | .lookup name de => do
    let hit ← dirlookup fs dp name de
    return .found hit
  | .link name inum de lookupDe => do
    let ret ← dirlink fs dp name inum de lookupDe
    return .linked ret
  | .unlink name de lookupDe => do
    match ← dirlookup fs dp name lookupDe with
    | some (inum,off) =>
      fsUnlink fs dp off de
      return .found (some (inum,off))
    | none => return .found none
  | .put i => do
    iput fs i
    return .done
  | .reload => do
    iunlockput fs dp
    iget dp
    ilock fs dp
    return .done
  | .commit => do
    onSys (endOp fs)
    onSys beginOp
    return .done

def answer (hit : Option (UInt16 × Nat)) : Option (UInt32 × UInt32) :=
  hit.map (fun hit => (hit.1.toUInt32,UInt32.ofNat (16 * hit.2)))

def DirOp.apply (t : Table (List UInt8) UInt16) : DirOp → DirReply × Table (List UInt8) UInt16
  | .lookup name _ => (.found (answer (t.find (cname name dirsiz))),t)
  | .link name inum _ _ =>
    match t.find (cname name dirsiz) with
    | some _ => (.linked (-1),t)
    | none => (.linked 0,t.put (cname name dirsiz) (UInt16.ofNat inum.toNat))
  | .unlink name _ _ =>
    match t.find (cname name dirsiz) with
    | some hit => (.found (answer (some hit)),t.clear hit.2)
    | none => (.found none,t)
  | .put _ => (.done,t)
  | .reload => (.done,t)
  | .commit => (.done,t)

/-- The name that a call may add or take away. -/
def DirOp.name : DirOp → Option (List UInt8)
  | .lookup _ _ => none
  | .link name _ _ _ => some (cname name dirsiz)
  | .unlink name _ _ => some (cname name dirsiz)
  | .put _ => none
  | .reload => none
  | .commit => none

/-- The reply without the offset. -/
def DirReply.value : DirReply → DirReply
  | .found hit => .found (hit.map (fun hit => (hit.1,0)))
  | .linked ret => .linked ret
  | .done => .done

def DirOp.applyMap (m : List UInt8 → Option UInt16) : DirOp → DirReply × (List UInt8 → Option UInt16)
  | .lookup name _ => (.found ((m (cname name dirsiz)).map (fun inum => (inum.toUInt32,0))),m)
  | .link name inum _ _ =>
    if m (cname name dirsiz) = none then
      (.linked 0,update m (cname name dirsiz) (some (UInt16.ofNat inum.toNat)))
    else (.linked (-1),m)
  | .unlink name _ _ =>
    (.found ((m (cname name dirsiz)).map (fun inum => (inum.toUInt32,0))),update m (cname name dirsiz) none)
  | .put _ => (.done,m)
  | .reload => (.done,m)
  | .commit => (.done,m)

def DirOp.runAll (fs : Volume) (dp : UInt32) : List DirOp → M (List DirReply)
  | [] => pure []
  | op :: ops => do
    let reply ← op.run fs dp
    let replies ← DirOp.runAll fs dp ops
    return reply :: replies

def DirOp.applyAll (t : Table (List UInt8) UInt16) : List DirOp → List DirReply × Table (List UInt8) UInt16
  | [] => ([],t)
  | op :: ops => ((op.apply t).1 :: (DirOp.applyAll (op.apply t).2 ops).1,(DirOp.applyAll (op.apply t).2 ops).2)

def DirOp.mapAll (m : List UInt8 → Option UInt16) : List DirOp → List DirReply × (List UInt8 → Option UInt16)
  | [] => ([],m)
  | op :: ops => ((op.applyMap m).1 :: (DirOp.mapAll (op.applyMap m).2 ops).1,(DirOp.mapAll (op.applyMap m).2 ops).2)

def DirOp.step (fs : Volume) (dp : UInt32) (k : Kernel) (op : DirOp) : Option Kernel :=
  (op.run fs dp k).toOption.map Prod.snd

/-- A call that keeps the directory a map: a link is not made under a name that stands for the directory
itself, a record that is written fits into the directory, the disk and the log, and `iget` finds an entry for the inode
that a name stands for. -/
def DirOp.Allowed (fs : Volume) (dp : UInt32) (k : Kernel) : DirOp → Prop
  | .lookup name _ => ∀ hit ∈ (slots fs k.view dp).find (cname name dirsiz), k.Room hit.1.toUInt32
  | .link name inum _ _ =>
      (∀ hit ∈ (slots fs k.view dp).find (cname name dirsiz), hit.1.toUInt32 ≠ dp ∧ k.Room hit.1.toUInt32) ∧
      ((slots fs k.view dp).find (cname name dirsiz) = none → UInt16.ofNat inum.toNat ≠ 0 ∧
        16 * ((slots fs k.view dp).hole + 1) ≤ maxfile * bsize ∧ Affordable fs k dp (16 * (slots fs k.view dp).hole) 16)
  | .unlink name _ _ => ∀ hit ∈ (slots fs k.view dp).find (cname name dirsiz),
      k.Room hit.1.toUInt32 ∧ Affordable fs k dp (16 * hit.2) 16
  | .put i => i ≠ dp ∧ 1 ≤ (k.cache i).ref ∧ ¬(k.cache i).Unlinked
  | .reload => (k.cache dp).ref ≠ 1 ∨ (files fs k.view dp).nlink ≠ 0
  | .commit => True

instance (fs : Volume) (dp : UInt32) (k : Kernel) : (op : DirOp) → Decidable (op.Allowed fs dp k)
  | .lookup _ _ => inferInstanceAs (Decidable (∀ _ ∈ _, Kernel.Room _ _))
  | .link _ _ _ _ => inferInstanceAs (Decidable ((∀ _ ∈ _, _ ∧ Kernel.Room _ _) ∧ _))
  | .unlink _ _ _ => inferInstanceAs (Decidable (∀ _ ∈ _, Kernel.Room _ _ ∧ _))
  | .put _ => inferInstanceAs (Decidable (_ ∧ _))
  | .reload => inferInstanceAs (Decidable (_ ∨ _))
  | .commit => .isTrue trivial

structure Listing (fs : Volume) (dp : UInt32) (k : Kernel) : Prop where
  steady : Steady fs k.elsewhere k k.view (fun i => (k.cache i).ref) (insert dp ∅) k.sys.log.lh.toFinset
  sound : Sound fs k.view
  dir : IsDir fs k.view dp

section Table

variable {t : Table (List UInt8) UInt16}

theorem DirOp.apply_unique (unique : t.Unique) (op : DirOp) : (op.apply t).2.Unique := by
  cases op with
  | lookup name de => exact unique
  | link name inum de lookupDe =>
    rw [DirOp.apply]
    cases found : t.find (cname name dirsiz) with
    | none => exact unique.put found _
    | some hit => exact unique
  | unlink name de lookupDe =>
    rw [DirOp.apply]
    cases found : t.find (cname name dirsiz) with
    | none => exact unique
    | some hit => exact unique.clear (List.getElem?_eq_some_iff.mp (Table.find_some found)).1
  | put i => exact unique
  | reload => exact unique
  | commit => exact unique

theorem DirOp.apply_entries (unique : t.Unique) (op : DirOp) :
    ((op.apply t).1.value,(op.apply t).2.entries) = op.applyMap t.entries := by
  cases op with
  | lookup name de =>
    rw [DirOp.apply,DirOp.applyMap,Table.entries,DirReply.value,answer,Option.map_map,Option.map_map]
    rfl
  | link name inum de lookupDe =>
    rw [DirOp.apply,DirOp.applyMap]
    cases found : t.find (cname name dirsiz) with
    | none => rw [if_pos (Table.entries_eq_none_iff.mpr found),← unique.entries_put found]; rfl
    | some hit =>
      rw [if_neg fun none => by rw [Table.entries_eq_none_iff.mp none] at found; cases found]
      rfl
  | unlink name de lookupDe =>
    rw [DirOp.apply,DirOp.applyMap]
    cases found : t.find (cname name dirsiz) with
    | none =>
      have absent := Table.entries_eq_none_iff.mpr found
      have same : update t.entries (cname name dirsiz) none = t.entries := by rw [← absent,update_eq_self]
      rw [same,absent]
      rfl
    | some hit =>
      rw [← unique.entries_clear (Table.find_some found),Table.entries,found]
      rfl
  | put i => rfl
  | reload => rfl
  | commit => rfl

theorem DirOp.apply_other {op : DirOp} {j : Nat} {a : List UInt8 × UInt16} (there : t[j]? = some (some a))
    (other : op.name ≠ some a.1) : (op.apply t).2[j]? = some (some a) := by
  cases op with
  | lookup name de => exact there
  | link name inum de lookupDe =>
    rw [DirOp.apply]
    cases found : t.find (cname name dirsiz) with
    | none =>
      have filled : j ≠ t.hole := fun same => Table.getElem?_hole t a (same ▸ there)
      exact (Table.getElem?_put _ _ _ _).trans ((if_neg filled).trans there)
    | some hit => exact there
  | unlink name de lookupDe =>
    rw [DirOp.apply]
    cases found : t.find (cname name dirsiz) with
    | none => exact there
    | some hit =>
      have here := Table.find_some found
      have differ : j ≠ hit.2 := by
        rintro rfl
        rw [here] at there
        cases there
        exact other rfl
      exact (Table.getElem?_clear _ _ _ (List.getElem?_eq_some_iff.mp here).1).trans ((if_neg differ).trans there)
  | put i => exact there
  | reload => exact there
  | commit => exact there

end Table

section

variable {fs : Volume} {dp : UInt32} {m : Nat} {k : Kernel} {v : Blockno → Block} {refs : UInt32 → Nat} {budget : Finset Blockno}

theorem Steady.listing (steady : Steady fs m k v refs (insert dp ∅) budget) (sound : Sound fs v) (dir : IsDir fs v dp) :
    v = k.view ∧ Listing fs dp k := by
  obtain ⟨rfl,tight⟩ := steady.tight
  exact ⟨rfl,tight,sound,dir⟩

def DirOp.Done (fs : Volume) (dp : UInt32) (op : DirOp) (k : Kernel) (reply : DirReply) (k' : Kernel) : Prop :=
  Listing fs dp k' ∧ (reply,slots fs k'.view dp) = op.apply (slots fs k.view dp)

theorem DirOp.link_meets (listing : Listing fs dp k) {name de lookupDe : Nat → UInt8} {inum : UInt32}
    (allowed : (DirOp.link name inum de lookupDe).Allowed fs dp k) :
    Meets (DirOp.run fs dp (.link name inum de lookupDe)) k (DirOp.Done fs dp (.link name inum de lookupDe) k) (fun _ => False) := by
  obtain ⟨present,absent⟩ := allowed
  have mine := Finset.mem_insert_self dp ∅
  cases found : (slots fs k.view dp).find (cname name dirsiz) with
  | some hit =>
    obtain ⟨foreign,room⟩ := present hit found
    refine (dirlink_present listing.steady listing.dir mine (listing.sound.dense dp) found (by simpa using foreign) room
      inum de lookupDe).bind ?_
    rintro _ k₁ ⟨rfl,steady₁⟩
    obtain ⟨view,listing₁⟩ := steady₁.listing listing.sound listing.dir
    refine .pure_intro ⟨listing₁,?_⟩
    rw [DirOp.apply,found,← view]
  | none =>
    obtain ⟨nonzero,fits,affordable⟩ := absent found
    obtain ⟨wide,enough⟩ := affordable.enough listing.sound listing.steady
    refine (dirlink_absent wide listing.dir mine listing.sound found nonzero fits enough
      (fun less => absurd affordable.1 (Nat.not_le.mpr less)) de lookupDe).bind ?_
    rintro _ k₁ ⟨rfl,v₁,budget₁,sound₁,dir₁,slots₁,steady₁⟩
    obtain ⟨rfl,listing₁⟩ := steady₁.listing sound₁ dir₁
    refine .pure_intro ⟨listing₁,?_⟩
    rw [DirOp.apply,found,slots₁]

theorem DirOp.unlink_meets (listing : Listing fs dp k) {name de lookupDe : Nat → UInt8}
    (allowed : (DirOp.unlink name de lookupDe).Allowed fs dp k) :
    Meets (DirOp.run fs dp (.unlink name de lookupDe)) k (DirOp.Done fs dp (.unlink name de lookupDe) k) (fun _ => False) := by
  have mine := Finset.mem_insert_self dp ∅
  have room (hit) (found : hit ∈ (slots fs k.view dp).find (cname name dirsiz)) := (allowed hit found).1
  cases found : (slots fs k.view dp).find (cname name dirsiz) with
  | none =>
    refine (dirlookup_meets listing.steady listing.dir mine (listing.sound.dense dp) name lookupDe room).bind ?_
    rintro _ k₁ ⟨rfl,steady₁,-⟩
    obtain ⟨view,listing₁⟩ := steady₁.listing listing.sound listing.dir
    rw [found]
    refine .pure_intro ⟨listing₁,?_⟩
    rw [DirOp.apply,found,← view]
  | some hit =>
    obtain ⟨wide,enough⟩ := (allowed hit found).2.enough listing.sound listing.steady
    refine (dirlookup_meets wide listing.dir mine (listing.sound.dense dp) name lookupDe room).bind ?_
    rintro _ k₁ ⟨rfl,steady₁,-⟩
    rw [found]
    have inside := (List.getElem?_eq_some_iff.mp (Table.find_some found)).1
    refine (fsUnlink_meets steady₁ listing.dir mine listing.sound inside enough de).bind ?_
    rintro _ k₂ ⟨v₂,budget₂,sound₂,dir₂,slots₂,steady₂⟩
    obtain ⟨rfl,listing₂⟩ := steady₂.listing sound₂ dir₂
    refine .pure_intro ⟨listing₂,?_⟩
    rw [DirOp.apply,found,slots₂]
    rfl

theorem Same.slots {v' : Blockno → Block} (same : Same fs v v') (sound : Sound fs v) : Fs.slots fs v' dp = Fs.slots fs v dp := by
  have contents := (same.sound sound).2
  rw [same.files] at contents
  rw [Fs.slots,Fs.slots,same.files]
  exact List.map_congr_left fun j _ => record_congr fun x _ => contents dp _

theorem DirOp.run_meets (listing : Listing fs dp k) {op : DirOp} (allowed : op.Allowed fs dp k) :
    Meets (op.run fs dp) k (op.Done fs dp k) (fun _ => False) := by
  have mine := Finset.mem_insert_self dp ∅
  have sound := listing.sound
  cases op with
  | lookup name de =>
    refine (dirlookup_meets listing.steady listing.dir mine (sound.dense dp) name de allowed).bind ?_
    rintro _ k₁ ⟨rfl,steady₁,-⟩
    obtain ⟨view,listing₁⟩ := steady₁.listing sound listing.dir
    exact .pure_intro ⟨listing₁,by rw [← view]; rfl⟩
  | link name inum de lookupDe => exact DirOp.link_meets listing allowed
  | unlink name de lookupDe => exact DirOp.unlink_meets listing allowed
  | put i =>
    refine (iput_kept listing.steady (by simpa using allowed.1) allowed.2.2).bind fun _ k₁ steady₁ => ?_
    obtain ⟨view,listing₁⟩ := steady₁.listing sound listing.dir
    exact .pure_intro ⟨listing₁,by rw [← view]; rfl⟩
  | reload =>
    have free := Finset.notMem_empty dp
    obtain ⟨known,copied⟩ := listing.steady.loaded dp mine
    have here := allocated_iff.mpr (listing.steady.copies dp _ known copied).1
    refine (iunlockput_last listing.steady free allowed).bind fun _ k₁ steady₁ => ?_
    refine iget_step steady₁ (steady₁.room_put listing.steady known) fun k₂ steady₂ _ => ?_
    refine ilock_step steady₂ free (by rw [update_self]; omega) here fun k₃ steady₃ => ?_
    obtain ⟨view,listing₃⟩ := steady₃.listing sound listing.dir
    exact .pure_intro ⟨listing₃,by rw [← view]; rfl⟩
  | commit =>
    refine commit_step listing.steady fun k₁ v₁ same steady₁ => ?_
    have dir : IsDir fs v₁ dp := by rw [IsDir,same.files]; exact listing.dir
    obtain ⟨rfl,listing₁⟩ := steady₁.listing (same.sound sound).1 dir
    exact .pure_intro ⟨listing₁,by rw [same.slots sound]; rfl⟩

/-- The records after every run are those of `applyAll`, and the entries and the replies those of the map. No name
is there twice, and a record stays where it is unless a call has its name. -/
theorem directory_is_map {ops : List DirOp} (start : Listing fs dp k) (unique : (slots fs k.view dp).Unique)
    (allowed : Throughout (DirOp.step fs dp) (fun k op => op.Allowed fs dp k) ops k) :
    ∃ replies k', DirOp.runAll fs dp ops k = .ok (replies,k') ∧ Listing fs dp k' ∧ (slots fs k'.view dp).Unique ∧
      (replies,slots fs k'.view dp) = DirOp.applyAll (slots fs k.view dp) ops ∧
      (replies.map DirReply.value,(slots fs k'.view dp).entries) = DirOp.mapAll (slots fs k.view dp).entries ops ∧
      ∀ (j : Nat) (a : List UInt8 × UInt16), (slots fs k.view dp)[j]? = some (some a) → (∀ op ∈ ops, op.name ≠ some a.1) →
        (slots fs k'.view dp)[j]? = some (some a) := by
  induction ops generalizing k with
  | nil => exact ⟨[],k,rfl,start,unique,rfl,rfl,fun _ _ there _ => there⟩
  | cons op ops ih =>
    obtain ⟨reply,k₁,ran,listing₁,result⟩ := (DirOp.run_meets start allowed.1).returns (fun _ => id)
    have stepped : DirOp.step fs dp k op = some k₁ := by
      rw [DirOp.step,ran]
      rfl
    have head : reply = (op.apply (slots fs k.view dp)).1 := congrArg Prod.fst result
    have table : slots fs k₁.view dp = (op.apply (slots fs k.view dp)).2 := congrArg Prod.snd result
    have mapped := op.apply_entries unique
    rw [← head,← table] at mapped
    have unique₁ := op.apply_unique unique
    rw [← table] at unique₁
    obtain ⟨replies,k₂,rest,listing₂,unique₂,results,maps,others⟩ := ih listing₁ unique₁ (allowed.2 k₁ stepped)
    refine ⟨reply :: replies,k₂,?_,listing₂,unique₂,?_,?_,fun j a there differ => ?_⟩
    · rw [DirOp.runAll,bind_ok ran,bind_ok rest]
      rfl
    · rw [DirOp.applyAll,← head,← table,← results]
    · rw [DirOp.mapAll,← mapped,← maps]
      rfl
    · refine others j a ?_ fun op' member => differ op' (List.mem_cons_of_mem _ member)
      rw [table]
      exact DirOp.apply_other there (differ op (List.mem_cons_self ..))

end

/-- A kernel in a transaction with an empty directory locked. -/
def lockedDir : Kernel where
  sys := ⟨cold (saved standard formatted ⟨1,tDir,0,0,1,0,fun _ => 0⟩),⟨2,30,1,false,[]⟩⟩
  cache i := if i = 1 then ⟨1,true,some ⟨1,tDir,0,0,1,0,fun _ => 0⟩⟩ else ⟨0,false,none⟩
  entries := {1}
  elsewhere := 0
  cached i := by split_ifs with first <;> simp [first]

theorem lockedDir_listing : Listing standard 1 lockedDir := by
  have table (i : UInt32) : files standard lockedDir.view i = if i = 1 then ⟨1,tDir,0,0,1,0,fun _ => 0⟩ else blankInode i 0 :=
    files_single rfl (by decide) i
  have copy : files standard lockedDir.view 1 = ⟨1,tDir,0,0,1,0,fun _ => 0⟩ := (table 1).trans (if_pos rfl)
  refine ⟨⟨fresh_track (by decide) _,fun _ => rfl,fun i => ?_,fun i member => ?_,fun i ip _ copied => ?_,rfl,by decide⟩,
    sound_single rfl (by decide) rfl rfl,?_⟩
  · simp only [lockedDir]
    split_ifs with first <;> simp [first]
  · obtain rfl : i = 1 := by simpa using member
    exact ⟨by decide,by rw [copy]; rfl⟩
  · simp only [lockedDir] at copied
    split_ifs at copied with first
    cases copied
    rw [first,copy]
    exact ⟨by decide,rfl⟩
  · rw [IsDir,copy]
    exact ⟨rfl,by decide⟩

theorem lockedDir_unique : (slots standard lockedDir.view 1).Unique := by
  have none : slots standard lockedDir.view 1 = [] := List.eq_nil_of_length_eq_zero (by decide +kernel)
  rw [none]
  intro i j a b first
  cases first

/-- Two names that agree on 14 bytes, the record of the first one used again, and both looked up from disk. -/
def fourteenOps : List DirOp :=
  [.link (cstring [46]) 1 garbage garbage,
    .link (cstring [1,2,3,4,5,6,7,8,9,10,11,12,13,14,15]) 5 garbage garbage,
    .link (cstring [1,2,3,4,5,6,7,8,9,10,11,12,13,14,16]) 6 garbage garbage,
    .unlink (cstring [1,2,3,4,5,6,7,8,9,10,11,12,13,14]) garbage garbage,.put 5,
    .link (cstring [46,46]) 1 garbage garbage,.commit,.reload,.lookup (cstring [46,46]) garbage]

theorem directory_is_map_fourteen :
    ∃ replies k', DirOp.runAll standard 1 fourteenOps lockedDir = .ok (replies,k') ∧
      (replies.map DirReply.value,(slots standard k'.view 1).entries) =
        DirOp.mapAll (slots standard lockedDir.view 1).entries fourteenOps := by
  obtain ⟨replies,k',ran,-,-,-,result,-⟩ := directory_is_map lockedDir_listing lockedDir_unique
    (by decide +kernel : Throughout _ _ fourteenOps lockedDir)
  exact ⟨replies,k',ran,result⟩

/-- A link under the name `.` of the directory itself, which is there, waits for the lock that the caller holds. -/
theorem dirlink_own_name_deadlocks :
    Listing standard 1 lockedDir ∧ (slots standard lockedDir.view 1).Unique ∧
      DirOp.runAll standard 1 [.link (cstring [46]) 1 garbage garbage,.link (cstring [46]) 5 garbage garbage] lockedDir =
        .error .deadlock :=
  ⟨lockedDir_listing,lockedDir_unique,stopped_eq_some (by decide +kernel)⟩

end Xv6Ext2.Fs
