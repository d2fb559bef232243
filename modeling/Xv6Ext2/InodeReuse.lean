import Xv6Ext2.IputRace

/-! A process in the free branch of `iput` while another one creates a file that gets the same inode
number: `ialloc`, `iget`, `ilock` and `iupdate` as `create` calls them. -/
namespace Xv6Ext2.Icache
open Lib

inductive Who where
  | freer
  | creator
  deriving DecidableEq

/-- Where the creator is. It has marked the inode used but not yet initialised (`zeroing`), is about to
call `iget` (`allocated`), to read `file_type` and call `ilock` (`got`), to take the lock (`waiting`), to
load the inode (`loading`), to call `iupdate` (`loaded`), or has made it (`saved`). -/
inductive CreatePc where
  | scanning
  | zeroing
  | allocated
  | got
  | waiting
  | loading
  | loaded
  | saved
  | crashed
  deriving DecidableEq

/-- `observed`: the creator has looked at an entry it has a reference to whose `file_type` or `addrs` is null. -/
structure Reuse where
  shared : Shared Who
  put : PutPc
  create : CreatePc
  observed : Bool

def diskType (fs : FsType) (type : UInt16) : UInt16 :=
  match fs with
  | .inbuiltfs => type
  | .ext2fs => if type = 1 ∨ type = 2 then type else 0

/-- The record that `ialloc` or `ext2_ialloc` makes. -/
def OnDisk.fresh (fs : FsType) (type : UInt16) (d : OnDisk) : OnDisk :=
  ⟨diskType fs type,0,0,fun _ => 0,d.used⟩

def Copy.loaded (fs : FsType) (old : Copy) (d : OnDisk) : Copy :=
  match fs with
  | .inbuiltfs => {old with type := d.type, nlink := d.nlink, size := d.size}
  | .ext2fs =>
    {type := if d.type = 1 ∨ d.type = 2 then d.type else old.type, major := 0, minor := 0, nlink := d.nlink, size := d.size}

/-- One step of the creator of an inode of type `type`, on an entry whose pointers are as given. -/
def createStep (fs : FsType) (type : UInt16) (s : Shared Who) : CreatePc → Option (Shared Who × CreatePc)
  | .scanning => match fs with
    | .inbuiltfs => if s.disk.type = 0 then some ({s with disk := s.disk.fresh fs type},.allocated) else none
    | .ext2fs => if s.disk.used then none else some ({s with disk := {s.disk with used := true}},.zeroing)
  | .zeroing => some ({s with disk := s.disk.fresh fs type},.allocated)
  | .allocated =>
    if 0 < s.ref then some ({s with ref := s.ref + 1},.got)
    else some ({s with ref := 1, valid := false, fileType := some fs, addrs := true, busy := true},.got)
  | .got => if s.fileType = none then some (s,.crashed) else some (s,.waiting)
  | .waiting => match s.holder with
    | none => some ({s with holder := some .creator},.loading)
    | some _ => none
  | .loading =>
    if s.valid then some (s,.loaded)
    else if s.addrs = false then some (s,.crashed)
    else if (s.copy.loaded fs s.disk).type = 0 then none
    else some ({s with
      copy := s.copy.loaded fs s.disk
      blocks := s.disk.blocks
      valid := true
      fileType := match fs with
        | .inbuiltfs => some .inbuiltfs
        | .ext2fs => s.fileType},.loaded)
  | .loaded =>
    if s.fileType = none ∨ s.addrs = false then some (s,.crashed)
    else some ({s with copy := {s.copy with nlink := 1}}.saved fs,.saved)
  | .saved | .crashed => none

/-- The creator looks at the entry. -/
def CreatePc.looks : CreatePc → Bool
  | .got | .waiting | .loading | .loaded => true
  | _ => false

def Reuse.step (fs : FsType) (type : UInt16) (c : Reuse) : Who → Option Reuse
  | .freer => (putStep fs .freer c.shared c.put).map fun next => {c with shared := next.1, put := next.2}
  | .creator => (createStep fs type c.shared c.create).map fun next =>
    {c with
      shared := next.1
      create := next.2
      observed := c.observed || c.create.looks && (c.shared.fileType == none || !c.shared.addrs)}

/-- One process has just entered the free branch for the last reference to an allocated inode, another
is about to look for a free inode. -/
structure Reuse.Initial (fs : FsType) (type : UInt16) (c : Reuse) : Prop where
  branch : c.put = match fs with
    | .inbuiltfs => .truncating
    | .ext2fs => .marking
  ref : c.shared.ref = 1
  holder : c.shared.holder = some .freer
  valid : c.shared.valid = true
  unlinked : c.shared.copy.nlink = 0
  typed : c.shared.fileType = some fs
  addrs : c.shared.addrs = true
  allocated : c.shared.copy.type ≠ 0 ∧ c.shared.disk.type ≠ 0 ∧ c.shared.disk.used = true
  scanning : c.create = .scanning
  unseen : c.observed = false
  kind : diskType fs type = type ∧ type ≠ 0

/-- The inode on disk is as the creator left it. -/
def Reuse.Intact (fs : FsType) (type : UInt16) (c : Reuse) : Prop :=
  match c.create with
  | .scanning | .zeroing => True
  | .saved => c.shared.disk = {c.shared.disk.fresh fs type with nlink := 1}
  | _ => c.shared.disk = c.shared.disk.fresh fs type

/-- The `iget` of the creator finds no entry for the number. -/
def Reuse.Vacant (c : Reuse) (i : Who) : Prop := i = .creator → c.create = .allocated → c.shared.ref = 0

namespace Reuse

/-- Before the creator calls `iget`. -/
structure Early (fs : FsType) (type : UInt16) (c : Reuse) : Prop where
  unseen : c.observed = false
  kind : diskType fs type = type ∧ type ≠ 0
  ref : c.shared.ref = if c.put = .done then 0 else 1
  holder : c.shared.holder = if c.put = .dropping ∨ c.put = .done then none else some .freer
  freer : match c.put with
    | .truncating => c.shared.fileType = some fs ∧ c.shared.copy.nlink = 0 ∧
        (fs = .inbuiltfs → c.create = .scanning ∧ c.shared.disk.type ≠ 0 ∧ c.shared.copy.type ≠ 0)
    | .marking => c.shared.fileType = some fs ∧ c.shared.copy.nlink = 0 ∧ c.create = .scanning ∧
        match fs with
        | .inbuiltfs => c.shared.disk.type ≠ 0
        | .ext2fs => c.shared.disk.used = true
    | .updating => c.shared.fileType = some fs ∧ c.shared.copy.nlink = 0 ∧ fs = .ext2fs ∧ c.shared.blocks = fun _ => 0
    | .clearing => c.shared.fileType = some fs
    | .leaving | .dropping => c.shared.fileType = none
    | .done => True
    | _ => False
  creator : match c.create with
    | .scanning => True
    | .zeroing => fs = .ext2fs
    | .allocated => c.shared.disk = c.shared.disk.fresh fs type
    | _ => False

structure Apart (fs : FsType) (type : UInt16) (c : Reuse) : Prop where
  unseen : c.observed = false
  kind : diskType fs type = type ∧ type ≠ 0
  done : c.put = .done
  typed : c.shared.fileType = some fs
  addrs : c.shared.addrs = true
  creator : match c.create with
    | .got | .waiting | .loading => c.shared.valid = false ∧ c.shared.disk = c.shared.disk.fresh fs type
    | .loaded => c.shared.disk = c.shared.disk.fresh fs type ∧ c.shared.copy.type = type ∧ c.shared.copy.size = 0 ∧
        c.shared.blocks = fun _ => 0
    | .saved => c.shared.disk = {c.shared.disk.fresh fs type with nlink := 1}
    | _ => False

/-- The creator has a reference to the entry that the freer is about to clear, or has cleared. -/
def Mixed (c : Reuse) : Prop :=
  c.observed = true ∨ (c.create = .got ∨ c.create = .waiting) ∧
    match c.put with
    | .truncating | .marking | .updating | .clearing => c.shared.holder = some .freer
    | .leaving => c.shared.holder = some .freer ∧ c.shared.fileType = none
    | .dropping | .done => c.shared.fileType = none
    | _ => False

variable {fs : FsType} {type : UInt16} {c c' : Reuse}

theorem Initial.early (initial : c.Initial fs type) : c.Early fs type := by
  obtain ⟨s,put,create,observed⟩ := c
  obtain ⟨branch,ref,holder,valid,unlinked,typed,addrs,⟨allocated,stored,used⟩,scanning,unseen,kind⟩ := initial
  dsimp only at *
  subst scanning branch
  cases fs
  · exact ⟨unseen,kind,ref,holder,⟨typed,unlinked,fun _ => ⟨rfl,stored,allocated⟩⟩,trivial⟩
  · exact ⟨unseen,kind,ref,holder,⟨typed,unlinked,rfl,used⟩,trivial⟩

private theorem early_freer (early : c.Early fs type) (ran : c.step fs type .freer = some c') : c'.Early fs type := by
  obtain ⟨next,stepped,rfl⟩ := Option.map_eq_some_iff.mp ran
  obtain ⟨s,put,create,observed⟩ := c
  obtain ⟨unseen,kind,ref,holder,freer,creator⟩ := early
  dsimp only at *
  cases put with
  | start | locked | sampled => exact freer.elim
  | truncating =>
    cases fs
    · cases stepped
      obtain ⟨scanning,stored,typed⟩ := freer.2.2 rfl
      subst scanning
      exact ⟨unseen,kind,ref,holder,⟨freer.1,freer.2.1,rfl,typed⟩,trivial⟩
    · cases stepped
      exact ⟨unseen,kind,ref,holder,⟨freer.1,freer.2.1,rfl,rfl⟩,creator⟩
  | marking =>
    obtain ⟨typed,unlinked,rfl,stored⟩ := freer
    cases fs
    · cases stepped
      exact ⟨unseen,kind,ref,holder,typed,trivial⟩
    · simp only [putStep] at stepped
      rw [if_pos stored] at stepped
      cases stepped
      exact ⟨unseen,kind,ref,holder,⟨typed,unlinked,fun same => by cases same⟩,trivial⟩
  | updating =>
    obtain ⟨typed,unlinked,rfl,empty⟩ := freer
    cases stepped
    refine ⟨unseen,kind,ref,holder,typed,?_⟩
    cases create with
    | allocated =>
      dsimp only at creator ⊢
      rw [creator]
      simp [Shared.saved,OnDisk.fresh,unlinked,empty]
    | _ => exact creator
  | clearing =>
    cases fs <;> cases stepped <;> exact ⟨unseen,kind,ref,holder,rfl,creator⟩
  | leaving =>
    cases stepped
    exact ⟨unseen,kind,ref,rfl,freer,creator⟩
  | dropping =>
    simp only [putStep] at stepped
    rw [if_pos (by rw [ref]; rfl)] at stepped
    cases fs <;> cases stepped <;> exact ⟨unseen,kind,rfl,holder,trivial,creator⟩
  | done => cases stepped

private theorem ext2_kind (kind : diskType .ext2fs type = type ∧ type ≠ 0) : type = 1 ∨ type = 2 := by
  by_contra other
  have none := kind.1
  rw [diskType,if_neg other] at none
  exact kind.2 none.symm

private theorem early_creator (early : c.Early fs type) (ran : c.step fs type .creator = some c') :
    c.create ≠ .allocated ∧ c'.Early fs type ∨
      c.create = .allocated ∧ if c.shared.ref = 0 then c'.Apart fs type else c'.Mixed := by
  obtain ⟨next,stepped,rfl⟩ := Option.map_eq_some_iff.mp ran
  obtain ⟨s,put,create,observed⟩ := c
  obtain ⟨unseen,kind,ref,holder,freer,creator⟩ := early
  dsimp only at *
  subst unseen
  cases create with
  | scanning =>
    refine .inl ⟨by decide,?_⟩
    cases fs
    · simp only [createStep] at stepped
      split_ifs at stepped with unused
      cases stepped
      refine ⟨rfl,kind,ref,holder,?_,rfl⟩
      cases put with
      | truncating => exact absurd unused (freer.2.2 rfl).2.1
      | marking => exact absurd unused freer.2.2.2
      | _ => exact freer
    · simp only [createStep] at stepped
      split_ifs at stepped with unused
      cases stepped
      refine ⟨rfl,kind,ref,holder,?_,rfl⟩
      cases put with
      | truncating => exact ⟨freer.1,freer.2.1,fun same => by cases same⟩
      | marking => exact absurd freer.2.2.2 unused
      | _ => exact freer
  | zeroing =>
    cases stepped
    subst creator
    refine .inl ⟨by decide,rfl,kind,ref,holder,?_,rfl⟩
    cases put with
    | truncating => exact ⟨freer.1,freer.2.1,fun same => by cases same⟩
    | marking => cases freer.2.2.1
    | _ => exact freer
  | allocated =>
    refine .inr ⟨rfl,?_⟩
    simp only [createStep] at stepped
    split_ifs at stepped ⊢ with vacant
    · omega
    · cases stepped
      have done : put = .done := by
        by_contra running
        rw [if_neg running] at ref
        omega
      exact ⟨rfl,kind,done,rfl,rfl,rfl,creator⟩
    · cases stepped
      refine .inr ⟨.inl rfl,?_⟩
      cases put with
      | start | locked | sampled => exact freer.elim
      | truncating | marking | updating | clearing => exact holder
      | leaving => exact ⟨holder,freer⟩
      | dropping => exact freer
      | done => exact absurd ref vacant
    · omega
  | _ => exact creator.elim

private theorem apart_step (apart : c.Apart fs type) {i : Who} (ran : c.step fs type i = some c') : c'.Apart fs type := by
  obtain ⟨s,put,create,observed⟩ := c
  obtain ⟨unseen,kind,done,typed,addrs,creator⟩ := apart
  dsimp only at *
  subst unseen done
  cases i with
  | freer => cases ran
  | creator =>
    obtain ⟨next,stepped,rfl⟩ := Option.map_eq_some_iff.mp ran
    dsimp only at *
    have fine : (s.fileType == none || !s.addrs) = false := by rw [typed,addrs]; rfl
    cases create with
    | got =>
      simp only [createStep] at stepped
      rw [if_neg (by rw [typed]; exact Option.some_ne_none _)] at stepped
      cases stepped
      exact ⟨by rw [fine]; rfl,kind,rfl,typed,addrs,creator⟩
    | waiting =>
      simp only [createStep] at stepped
      split at stepped <;> cases stepped
      exact ⟨by dsimp only; rw [fine]; rfl,kind,rfl,typed,addrs,creator⟩
    | loading =>
      obtain ⟨invalid,fresh⟩ := creator
      have loadedType : (s.copy.loaded fs s.disk).type = type := by
        rw [fresh]
        cases fs
        · rfl
        · simp only [Copy.loaded,OnDisk.fresh,diskType,if_pos (ext2_kind kind)]
      simp only [createStep] at stepped
      rw [if_neg (by rw [invalid]; decide),if_neg (by rw [addrs]; decide),
        if_neg (by rw [loadedType]; exact kind.2)] at stepped
      cases stepped
      refine ⟨by dsimp only; rw [fine]; rfl,kind,rfl,?_,addrs,fresh,loadedType,?_,?_⟩
      · cases fs
        · rfl
        · exact typed
      · dsimp only
        rw [fresh]
        cases fs <;> rfl
      · dsimp only
        rw [fresh]
        rfl
    | loaded =>
      obtain ⟨fresh,loadedType,size,blocks⟩ := creator
      simp only [createStep] at stepped
      rw [if_neg (by rw [typed,addrs]; simp)] at stepped
      cases stepped
      refine ⟨by dsimp only; rw [fine]; rfl,kind,rfl,typed,addrs,?_⟩
      cases fs
      · simp only [Shared.saved,OnDisk.fresh,diskType,loadedType,size,blocks]
      · simp only [Shared.saved,OnDisk.fresh,diskType,loadedType,size,blocks,if_pos (ext2_kind kind)]
    | saved => cases stepped
    | _ => exact creator.elim

private theorem mixed_step (mixed : c.Mixed) {i : Who} (ran : c.step fs type i = some c') : c'.Mixed := by
  obtain ⟨s,put,create,observed⟩ := c
  rcases mixed with seen | ⟨place,facts⟩
  · dsimp only at seen
    subst seen
    refine .inl ?_
    cases i with
    | freer =>
      obtain ⟨next,-,rfl⟩ := Option.map_eq_some_iff.mp ran
      rfl
    | creator =>
      obtain ⟨next,-,rfl⟩ := Option.map_eq_some_iff.mp ran
      rfl
  · dsimp only at place facts
    cases i with
    | freer =>
      obtain ⟨next,stepped,rfl⟩ := Option.map_eq_some_iff.mp ran
      refine .inr ⟨place,?_⟩
      dsimp only at stepped ⊢
      cases put with
      | start | locked | sampled => exact facts.elim
      | truncating => cases fs <;> cases stepped <;> exact facts
      | marking =>
        cases fs
        · cases stepped
          exact facts
        · simp only [putStep] at stepped
          split_ifs at stepped
          cases stepped
          exact facts
      | updating =>
        cases stepped
        exact facts
      | clearing => cases fs <;> cases stepped <;> exact ⟨facts,rfl⟩
      | leaving =>
        cases stepped
        exact facts.2
      | dropping =>
        simp only [putStep] at stepped
        split_ifs at stepped
        · cases fs <;> cases stepped
          · exact facts
          · rfl
        · cases stepped
          exact facts
      | done => cases stepped
    | creator =>
      obtain ⟨next,stepped,rfl⟩ := Option.map_eq_some_iff.mp ran
      dsimp only at stepped ⊢
      rcases place with rfl | rfl
      · simp only [createStep] at stepped
        split_ifs at stepped with null
        · refine .inl ?_
          dsimp only
          rw [null]
          simp [CreatePc.looks]
        · cases stepped
          exact .inr ⟨.inr rfl,facts⟩
      · simp only [createStep] at stepped
        split at stepped
        · rename_i free
          refine .inl ?_
          have null : s.fileType = none := by
            cases put with
            | start | locked | sampled => exact facts.elim
            | truncating | marking | updating | clearing =>
              rw [free] at facts
              cases facts
            | leaving => exact facts.2
            | dropping | done => exact facts
          dsimp only
          rw [null]
          simp [CreatePc.looks]
        · cases stepped

private theorem early_step (early : c.Early fs type) {i : Who} (ran : c.step fs type i = some c') :
    c'.Early fs type ∨ i = .creator ∧ c.create = .allocated ∧ if c.shared.ref = 0 then c'.Apart fs type else c'.Mixed := by
  cases i with
  | freer => exact .inl (early_freer early ran)
  | creator => exact (early_creator early ran).imp And.right (fun next => ⟨rfl,next⟩)

private theorem phase_step {i : Who} (phase : c.Early fs type ∨ c.Apart fs type ∨ c.Mixed)
    (ran : c.step fs type i = some c') : c'.Early fs type ∨ c'.Apart fs type ∨ c'.Mixed := by
  rcases phase with early | apart | mixed
  · rcases early_step early ran with next | ⟨-,-,next⟩
    · exact .inl next
    · split_ifs at next
      · exact .inr (.inl next)
      · exact .inr (.inr next)
  · exact .inr (.inl (apart_step apart ran))
  · exact .inr (.inr (mixed_step mixed ran))

end Reuse

/-- A creator that has come to its end, or to a null pointer, has seen no null pointer and has its inode
on disk as it left it if and only if its `iget` found no entry for the number. -/
theorem inode_reuse_safe_iff {fs : FsType} {type : UInt16} {c c' : Reuse} (initial : c.Initial fs type) {is : List Who}
    (ran : schedule (Reuse.step fs type) is c = some c') (finished : c'.create = .saved ∨ c'.create = .crashed) :
    c'.observed = false ∧ c'.Intact fs type ↔ Throughout (Reuse.step fs type) Reuse.Vacant is c := by
  constructor
  · rintro ⟨unseen,-⟩
    by_contra broken
    obtain ⟨before,i,after,t,t',ran₁,hit,stepped,ran₂⟩ := exists_broken broken ran
    simp only [Reuse.Vacant,not_forall] at hit
    obtain ⟨rfl,here,live⟩ := hit
    have mixed : t'.Mixed := by
      rcases schedule_invariant (fun _ _ _ => Reuse.phase_step) (.inl initial.early) ran₁ with early | apart | mixed
      · have next := (Reuse.early_creator early stepped).resolve_left (fun elsewhere => elsewhere.1 here)
        rw [if_neg live] at next
        exact next.2
      · have creator := apart.creator
        rw [here] at creator
        exact creator.elim
      · exact Reuse.mixed_step mixed stepped
    rcases schedule_invariant (fun _ _ _ mixed ran => Reuse.mixed_step mixed ran) mixed ran₂ with seen | ⟨place,-⟩
    · rw [unseen] at seen
      cases seen
    · rcases finished with same | same <;> rw [same] at place <;> simp at place
  · intro vacant
    have good := @schedule_keeps _ _ _ (fun c => c.Early fs type ∨ c.Apart fs type) _ _ _ _ ?_ vacant
      (.inl initial.early) ran
    · rcases good with early | apart
      · have creator := early.creator
        rcases finished with same | same <;> rw [same] at creator <;> exact creator.elim
      · have creator := apart.creator
        refine ⟨apart.unseen,?_⟩
        rw [Reuse.Intact]
        rcases finished with same | same <;> rw [same] at creator ⊢
        · exact creator
        · exact creator.elim
    · rintro c i c' (early | apart) vacant ran
      · rcases Reuse.early_step early ran with next | ⟨rfl,here,next⟩
        · exact .inl next
        · rw [if_pos (vacant rfl here)] at next
          exact .inr next
      · exact .inr (Reuse.apart_step apart ran)

private def removing (fs : FsType) (put : PutPc) : Reuse where
  shared := ⟨1,some .freer,true,⟨2,0,0,0,5⟩,some fs,true,true,fun _ => 7,⟨2,0,5,fun _ => 7,true⟩,0,0⟩
  put := put
  create := .scanning
  observed := false

/-- The freer goes first, and a new file gets the number. -/
theorem inode_reuse_in_turn : (removing .inbuiltfs .truncating).Initial .inbuiltfs 2 ∧
    ∃ c', schedule (Reuse.step .inbuiltfs 2) (List.replicate 5 .freer ++ List.replicate 6 .creator)
        (removing .inbuiltfs .truncating) = some c' ∧ c'.create = .saved ∧
      (c'.observed = false ∧ c'.Intact .inbuiltfs 2 ↔ Throughout (Reuse.step .inbuiltfs 2) Reuse.Vacant
        (List.replicate 5 .freer ++ List.replicate 6 .creator) (removing .inbuiltfs .truncating)) := by
  have initial : (removing .inbuiltfs .truncating).Initial .inbuiltfs 2 :=
    ⟨rfl,rfl,rfl,rfl,rfl,rfl,rfl,⟨by decide,by decide,rfl⟩,rfl,rfl,by decide⟩
  exact ⟨initial,_,rfl,rfl,inode_reuse_safe_iff initial rfl (.inl rfl)⟩

/-- The creator takes the number when it is marked free and gets the entry that is being cleared. -/
theorem creator_gets_cleared_entry :
    ((removing .inbuiltfs .truncating).Initial .inbuiltfs 2 ∧ ∃ c', schedule (Reuse.step .inbuiltfs 2)
        [.freer,.freer,.creator,.creator,.freer,.creator] (removing .inbuiltfs .truncating) = some c' ∧
      c'.shared.ref = 2 ∧ c'.shared.fileType = none ∧ c'.shared.addrs = false ∧ c'.create = .crashed ∧ c'.observed = true) ∧
    (removing .ext2fs .marking).Initial .ext2fs 2 ∧ ∃ c', schedule (Reuse.step .ext2fs 2)
        [.freer,.creator,.creator,.creator,.freer,.freer,.freer,.creator] (removing .ext2fs .marking) = some c' ∧
      c'.shared.ref = 2 ∧ c'.shared.fileType = none ∧ c'.create = .crashed ∧ c'.observed = true := by
  have initial : (removing .inbuiltfs .truncating).Initial .inbuiltfs 2 :=
    ⟨rfl,rfl,rfl,rfl,rfl,rfl,rfl,⟨by decide,by decide,rfl⟩,rfl,rfl,by decide⟩
  have initial' : (removing .ext2fs .marking).Initial .ext2fs 2 :=
    ⟨rfl,rfl,rfl,rfl,rfl,rfl,rfl,⟨by decide,by decide,rfl⟩,rfl,rfl,by decide⟩
  exact ⟨⟨initial,_,rfl,rfl,rfl,rfl,rfl,rfl⟩,initial',_,rfl,rfl,rfl,rfl,rfl⟩

end Xv6Ext2.Icache
