import Xv6Ext2.Bio
import Mathlib

/-! The inode cache and the two tables of block addresses, `addrs` and `ext2_addrs`, that its entries
point to. The calls run to completion one after the other. -/
namespace Xv6Ext2.Icache
open Lib Bio Function

/-- `NINODE` -/
def ninode : Nat := 50

instance : NeZero ninode := ⟨by decide⟩

/-- `ROOTDEV` -/
def rootdev : UInt32 := 1

/-- What `file_type` points to. -/
inductive FsType where
  | inbuiltfs
  | ext2fs
  deriving DecidableEq

/-- A pointer into `addrs[NINODE]` or `ext2_addrs[NINODE]`. -/
structure Addrs where
  pool : FsType
  index : Fin ninode
  deriving DecidableEq

/-- The fields of an entry that are copies of the inode on disk, as the bits of a `short`. -/
structure Copy where
  type : UInt16
  major : UInt16
  minor : UInt16
  nlink : UInt16
  size : UInt32
  deriving DecidableEq

/-- `struct inode`; a null pointer is `none`. -/
structure Entry where
  dev : UInt32
  inum : UInt32
  ref : Nat
  locked : Bool
  valid : Bool
  copy : Copy
  addrs : Option Addrs
  fileType : Option FsType
  deriving DecidableEq

structure State where
  inode : Fin ninode → Entry
  busy : FsType → Fin ninode → Bool

def zeroed : State where
  inode _ := ⟨0,0,0,false,false,⟨0,0,0,0,0⟩,none,none⟩
  busy _ _ := false

namespace State

def put (s : State) (k : Fin ninode) (e : Entry) : State := {s with inode := update s.inode k e}

def mark (s : State) (a : Addrs) (busy : Bool) : State :=
  {s with busy := fun pool i => if pool = a.pool ∧ i = a.index then busy else s.busy pool i}

/-- The search for a slot; `none` is the index `NINODE`. -/
def freeSlot (s : State) (pool : FsType) : Option (Fin ninode) :=
  (List.finRange ninode).find? (fun i => !s.busy pool i)

def cached (s : State) (dev inum : UInt32) : Option (Fin ninode) :=
  (List.finRange ninode).find? (fun k => 0 < (s.inode k).ref ∧ (s.inode k).dev = dev ∧ (s.inode k).inum = inum)

def empty (s : State) : Option (Fin ninode) :=
  (List.finRange ninode).find? (fun k => (s.inode k).ref = 0)

end State

section

variable (s : State) (a : Addrs) (k : Fin ninode) (e : Entry)

@[simp] theorem put_self : (s.put k e).inode k = e := update_self _ _ _

theorem put_other {l : Fin ninode} (other : l ≠ k) : (s.put k e).inode l = s.inode l := update_of_ne other _ _

@[simp] theorem put_busy : (s.put k e).busy = s.busy := rfl

@[simp] theorem mark_inode (v : Bool) : (s.mark a v).inode = s.inode := rfl

theorem mark_busy (v : Bool) (pool : FsType) (i : Fin ninode) :
    (s.mark a v).busy pool i = if pool = a.pool ∧ i = a.index then v else s.busy pool i := rfl

end

def iget (dev inum : UInt32) : Exec Fault State (Fin ninode) := fun s =>
  match s.cached dev inum with
  | some k => .ok (k,s.put k {s.inode k with ref := (s.inode k).ref + 1})
  | none =>
    let i := s.freeSlot .inbuiltfs
    let j := s.freeSlot .ext2fs
    match s.empty with
    | none => .error (.panic "iget: no inodes")
    | some k =>
      let recycled (a : Addrs) : Entry :=
        {s.inode k with dev := dev, inum := inum, ref := 1, valid := false, fileType := some a.pool, addrs := some a}
      if dev = rootdev then
        match i with
        | some i => .ok (k,(s.put k (recycled ⟨.inbuiltfs,i⟩)).mark ⟨.inbuiltfs,i⟩ true)
        | none => .error .outOfBounds
      else
        match j with
        | some j => .ok (k,(s.put k (recycled ⟨.ext2fs,j⟩)).mark ⟨.ext2fs,j⟩ true)
        | none => .error .outOfBounds

def idup (k : Fin ninode) : Exec Fault State Unit := fun s =>
  .ok ((),s.put k {s.inode k with ref := (s.inode k).ref + 1})

/-- What the two `ilock`s share: `disk` is what a load leaves in the fields of the inode, `retype` what it
does to `file_type`. -/
def lockWith (retype : Option FsType → Option FsType) (k : Fin ninode) (disk : Copy) : Exec Fault State Unit := fun s =>
  let e := s.inode k
  if e.ref < 1 then .error (.panic "ilock")
  else if e.locked then .error .deadlock
  else if e.valid then .ok ((),s.put k {e with locked := true})
  else if e.addrs = none then .error .dangling
  else if disk.type = 0 then .error (.panic "ilock: no type")
  else .ok ((),s.put k {e with locked := true, copy := disk, fileType := retype e.fileType, valid := true})

def ilock : Fin ninode → Copy → Exec Fault State Unit := lockWith (fun _ => some .inbuiltfs)

def ext2Ilock : Fin ninode → Copy → Exec Fault State Unit := lockWith id

def iunlock (k : Fin ninode) : Exec Fault State Unit := fun s =>
  let e := s.inode k
  if ¬e.locked ∨ e.ref < 1 then .error (.panic "iunlock")
  else .ok ((),s.put k {e with locked := false})

/-- Whether `iput` truncates and frees the inode. -/
def Entry.frees (e : Entry) : Bool := e.valid && e.copy.nlink == 0 && e.ref == 1

/-- The end of both `iput`s: `e` is the entry so far, `ad` the slot it had at first, `last` what becomes of
an entry that nobody refers to any more. -/
def dropRef (last : Entry → Entry) (k : Fin ninode) (e : Entry) (ad : Option Addrs) : Exec Fault State Unit := fun s =>
  let e := {e with ref := e.ref - 1}
  if e.ref = 0 then
    match ad with
    | some ad => .ok ((),(s.put k (last e)).mark ad false)
    | none => .error .dangling
  else .ok ((),s.put k e)

def iput (k : Fin ninode) : Exec Fault State Unit := fun s =>
  let e := s.inode k
  if e.locked then .error .deadlock
  else if e.frees then
    dropRef (fun e => {e with addrs := none}) k
      {e with copy := {e.copy with type := 0, size := 0}, valid := false, fileType := none, addrs := none} e.addrs s
  else dropRef (fun e => {e with addrs := none}) k e e.addrs s

def ext2Iput (k : Fin ninode) : Exec Fault State Unit := fun s =>
  let e := s.inode k
  if e.locked then .error .deadlock
  else if e.frees then
    dropRef (fun e => {e with fileType := none}) k
      {e with copy := {e.copy with type := 0, size := 0}, valid := false, fileType := none} e.addrs s
  else dropRef (fun e => {e with fileType := none}) k e e.addrs s

/-- A call; all but `iget` are made by a holder of a reference. -/
inductive Op where
  | iget (dev inum : UInt32)
  | idup (k : Fin ninode)
  | ilock (k : Fin ninode) (disk : Copy)
  | iunlock (k : Fin ninode)
  /-- The holder of the lock changes the fields of the inode. -/
  | edit (k : Fin ninode) (copy : Copy)
  | iput (k : Fin ninode)

def held (k : Fin ninode) (call : Exec Fault State Unit) : Exec Fault State Unit := fun s =>
  if (s.inode k).ref = 0 then .error .dangling else call s

/-- A call through the `file_type` of the entry. -/
def through (k : Fin ninode) (inbuilt ext2 : Exec Fault State Unit) : Exec Fault State Unit := fun s =>
  match (s.inode k).fileType with
  | some .inbuiltfs => inbuilt s
  | some .ext2fs => ext2 s
  | none => .error .dangling

def Op.run : Op → Exec Fault State Unit
  | .iget dev inum => do
    let _ ← Icache.iget dev inum
    return ()
  | .idup k => held k (Icache.idup k)
  | .ilock k disk => held k (through k (Icache.ilock k disk) (ext2Ilock k disk))
  | .iunlock k => held k (through k (Icache.iunlock k) (Icache.iunlock k))
  | .edit k copy => held k (fun s => .ok ((),s.put k {s.inode k with copy := copy}))
  | .iput k => held k (through k (Icache.iput k) (ext2Iput k))

def runAll : List Op → Exec Fault State Unit
  | [] => pure ()
  | op :: ops => do
    op.run
    runAll ops

def fsOf (dev : UInt32) : FsType := if dev = rootdev then .inbuiltfs else .ext2fs

def State.Live (s : State) (k : Fin ninode) : Prop := 0 < (s.inode k).ref

structure Accounted (s : State) : Prop where
  unique : ∀ k l, s.Live k → s.Live l → (s.inode k).dev = (s.inode l).dev → (s.inode k).inum = (s.inode l).inum → k = l
  typed : ∀ k, s.Live k → (s.inode k).fileType = some (fsOf (s.inode k).dev)
  slot : ∀ k, s.Live k → ∃ i, (s.inode k).addrs = some ⟨fsOf (s.inode k).dev,i⟩ ∧ s.busy (fsOf (s.inode k).dev) i = true
  apart : ∀ k l, s.Live k → s.Live l → (s.inode k).addrs = (s.inode l).addrs → k = l
  owned : ∀ pool i, s.busy pool i = true → ∃ k, s.Live k ∧ (s.inode k).addrs = some ⟨pool,i⟩

inductive Change (s : State) : State → Prop where
  | kept (k : Fin ninode) (e : Entry) (before : s.Live k) (after : 0 < e.ref) (dev : e.dev = (s.inode k).dev)
      (inum : e.inum = (s.inode k).inum) (fileType : e.fileType = (s.inode k).fileType)
      (addrs : e.addrs = (s.inode k).addrs) : Change s (s.put k e)
  | claimed (k : Fin ninode) (e : Entry) (i : Fin ninode) (before : ¬s.Live k) (after : 0 < e.ref)
      (absent : ∀ l, s.Live l → ¬((s.inode l).dev = e.dev ∧ (s.inode l).inum = e.inum))
      (free : s.busy (fsOf e.dev) i = false) (fileType : e.fileType = some (fsOf e.dev))
      (addrs : e.addrs = some ⟨fsOf e.dev,i⟩) : Change s ((s.put k e).mark ⟨fsOf e.dev,i⟩ true)
  | dropped (k : Fin ninode) (e : Entry) (a : Addrs) (before : s.Live k) (after : e.ref = 0)
      (addrs : (s.inode k).addrs = some a) : Change s ((s.put k e).mark a false)

section

variable {s s' : State} {k : Fin ninode}

private theorem accounted_kept (acc : Accounted s) {e : Entry} (before : s.Live k) (after : 0 < e.ref)
    (dev : e.dev = (s.inode k).dev) (inum : e.inum = (s.inode k).inum) (fileType : e.fileType = (s.inode k).fileType)
    (addrs : e.addrs = (s.inode k).addrs) : Accounted (s.put k e) := by
  have field {α : Type} (f : Entry → α) (same : f e = f (s.inode k)) (l : Fin ninode) :
      f ((s.put k e).inode l) = f (s.inode l) := by
    by_cases here : l = k
    · rw [here,put_self,same]
    · rw [put_other _ _ _ here]
  have live (l : Fin ninode) : (s.put k e).Live l ↔ s.Live l := by
    by_cases here : l = k
    · rw [here,State.Live,put_self]
      exact iff_of_true after before
    · rw [State.Live,State.Live,put_other _ _ _ here]
  refine ⟨?_,?_,?_,?_,?_⟩
  · intro l m
    rw [live,live,field Entry.dev dev,field Entry.dev dev,field Entry.inum inum,field Entry.inum inum]
    exact acc.unique l m
  · intro l
    rw [live,field Entry.dev dev,field Entry.fileType fileType]
    exact acc.typed l
  · intro l
    rw [live,field Entry.dev dev,field Entry.addrs addrs]
    exact acc.slot l
  · intro l m
    rw [live,live,field Entry.addrs addrs,field Entry.addrs addrs]
    exact acc.apart l m
  · intro pool i marked
    obtain ⟨l,there,holds⟩ := acc.owned pool i marked
    exact ⟨l,(live l).mpr there,(field Entry.addrs addrs l).trans holds⟩

private theorem accounted_claimed (acc : Accounted s) {e : Entry} {i : Fin ninode} (before : ¬s.Live k)
    (after : 0 < e.ref) (absent : ∀ l, s.Live l → ¬((s.inode l).dev = e.dev ∧ (s.inode l).inum = e.inum))
    (free : s.busy (fsOf e.dev) i = false) (fileType : e.fileType = some (fsOf e.dev))
    (addrs : e.addrs = some ⟨fsOf e.dev,i⟩) : Accounted ((s.put k e).mark ⟨fsOf e.dev,i⟩ true) := by
  -- An entry other than `k` is as before and does not have the slot.
  have other (l : Fin ninode) (ne : l ≠ k) : ((s.put k e).mark ⟨fsOf e.dev,i⟩ true).inode l = s.inode l := put_other _ _ _ ne
  have self : ((s.put k e).mark ⟨fsOf e.dev,i⟩ true).inode k = e := put_self _ _ _
  have foreign (l : Fin ninode) (live : s.Live l) : (s.inode l).addrs ≠ some ⟨fsOf e.dev,i⟩ := by
    intro same
    obtain ⟨j,holds,marked⟩ := acc.slot l live
    rw [holds,Option.some.injEq,Addrs.mk.injEq] at same
    rw [same.1,same.2,free] at marked
    cases marked
  refine ⟨?_,?_,?_,?_,?_⟩
  · intro l m live live' dev inum
    by_cases first : l = k <;> by_cases second : m = k
    · rw [first,second]
    · rw [State.Live,other m second] at live'
      rw [first,self,other m second] at dev inum
      exact absurd ⟨dev.symm,inum.symm⟩ (absent m live')
    · rw [State.Live,other l first] at live
      rw [second,self,other l first] at dev inum
      exact absurd ⟨dev,inum⟩ (absent l live)
    · rw [State.Live,other l first] at live
      rw [State.Live,other m second] at live'
      rw [other l first,other m second] at dev inum
      exact acc.unique l m live live' dev inum
  · intro l live
    by_cases here : l = k
    · rw [here,self]
      exact fileType
    · rw [State.Live,other l here] at live
      rw [other l here]
      exact acc.typed l live
  · intro l live
    by_cases here : l = k
    · rw [here,self]
      exact ⟨i,addrs,by rw [mark_busy,if_pos ⟨rfl,rfl⟩]⟩
    · rw [State.Live,other l here] at live
      obtain ⟨j,holds,marked⟩ := acc.slot l live
      rw [other l here]
      refine ⟨j,holds,?_⟩
      rw [mark_busy]
      split_ifs
      · rfl
      · exact marked
  · intro l m live live' same
    by_cases first : l = k <;> by_cases second : m = k
    · rw [first,second]
    · rw [State.Live,other m second] at live'
      rw [first,self,other m second,addrs] at same
      exact absurd same.symm (foreign m live')
    · rw [State.Live,other l first] at live
      rw [second,self,other l first,addrs] at same
      exact absurd same (foreign l live)
    · rw [State.Live,other l first] at live
      rw [State.Live,other m second] at live'
      rw [other l first,other m second] at same
      exact acc.apart l m live live' same
  · intro pool j marked
    rw [mark_busy] at marked
    split_ifs at marked with here
    · refine ⟨k,by rw [State.Live,self]; exact after,?_⟩
      rw [self,addrs,here.1,here.2]
    · obtain ⟨l,live,holds⟩ := acc.owned pool j marked
      have ne : l ≠ k := fun same => before (same ▸ live)
      exact ⟨l,by rw [State.Live,other l ne]; exact live,by rw [other l ne]; exact holds⟩

private theorem accounted_dropped (acc : Accounted s) {e : Entry} {a : Addrs} (before : s.Live k) (after : e.ref = 0)
    (addrs : (s.inode k).addrs = some a) : Accounted ((s.put k e).mark a false) := by
  -- Only entries other than `k` are live, and they are as before.
  have live {l : Fin ninode} (there : ((s.put k e).mark a false).Live l) :
      l ≠ k ∧ s.Live l ∧ ((s.put k e).mark a false).inode l = s.inode l := by
    have ne : l ≠ k := by
      rintro rfl
      rw [State.Live,mark_inode,put_self,after] at there
      exact Nat.lt_irrefl 0 there
    have same : ((s.put k e).mark a false).inode l = s.inode l := put_other _ _ _ ne
    rw [State.Live,same] at there
    exact ⟨ne,there,same⟩
  refine ⟨?_,?_,?_,?_,?_⟩
  · intro l m there there' dev inum
    obtain ⟨-,there,same⟩ := live there
    obtain ⟨-,there',same'⟩ := live there'
    rw [same,same'] at dev inum
    exact acc.unique l m there there' dev inum
  · intro l there
    obtain ⟨-,there,same⟩ := live there
    rw [same]
    exact acc.typed l there
  · intro l there
    obtain ⟨ne,there,same⟩ := live there
    obtain ⟨j,holds,marked⟩ := acc.slot l there
    rw [same]
    refine ⟨j,holds,?_⟩
    rw [mark_busy,if_neg,put_busy]
    · exact marked
    · rintro ⟨pool,index⟩
      have shared : (s.inode l).addrs = (s.inode k).addrs := by
        rw [holds,addrs,pool,index]
      exact ne (acc.apart l k there before shared)
  · intro l m there there' holds
    obtain ⟨-,there,same⟩ := live there
    obtain ⟨-,there',same'⟩ := live there'
    rw [same,same'] at holds
    exact acc.apart l m there there' holds
  · intro pool j marked
    rw [mark_busy] at marked
    split_ifs at marked with here
    obtain ⟨l,there,holds⟩ := acc.owned pool j marked
    have ne : l ≠ k := by
      rintro rfl
      rw [addrs,Option.some.injEq] at holds
      exact here (by rw [holds]; exact ⟨rfl,rfl⟩)
    have same : ((s.put k e).mark a false).inode l = s.inode l := put_other _ _ _ ne
    exact ⟨l,by rw [State.Live,same]; exact there,by rw [same]; exact holds⟩

theorem Change.accounted (change : Change s s') (acc : Accounted s) : Accounted s' := by
  cases change with
  | kept k e before after dev inum fileType addrs => exact accounted_kept acc before after dev inum fileType addrs
  | claimed k e i before after absent free fileType addrs =>
    exact accounted_claimed acc before after absent free fileType addrs
  | dropped k e a before after addrs => exact accounted_dropped acc before after addrs

private theorem freeSlot_free {pool : FsType} {i : Fin ninode} (found : s.freeSlot pool = some i) :
    s.busy pool i = false := by
  have accepted := List.find?_some found
  rwa [Bool.not_eq_true'] at accepted

private theorem change_claimed {e : Entry} {pool : FsType} {i : Fin ninode} (unused : s.empty = some k)
    (absent : s.cached e.dev e.inum = none) (found : s.freeSlot pool = some i) (after : 0 < e.ref)
    (right : fsOf e.dev = pool) (fileType : e.fileType = some pool) (addrs : e.addrs = some ⟨pool,i⟩) :
    Change s ((s.put k e).mark ⟨pool,i⟩ true) := by
  subst right
  have none_live := List.find?_eq_none.mp absent
  simp only [List.mem_finRange,true_implies,decide_eq_true_eq] at none_live
  have idle := List.find?_some unused
  rw [decide_eq_true_eq] at idle
  exact .claimed k e i (by rw [State.Live,idle]; exact Nat.lt_irrefl 0) after
    (fun l live same => none_live l ⟨live,same⟩) (freeSlot_free found) fileType addrs

private theorem iget_changes (dev inum : UInt32) (s : State) :
    Meets (iget dev inum) s (fun _ s' => Change s s') (fun _ => True) := by
  cases hit : s.cached dev inum with
  | some k =>
    have accepted := List.find?_some hit
    rw [decide_eq_true_eq] at accepted
    refine .of_ok (by rw [iget,hit]) ?_
    exact .kept k _ accepted.1 (Nat.succ_pos _) rfl rfl rfl rfl
  | none =>
    cases unused : s.empty with
    | none => exact .of_error (by rw [iget,hit]; dsimp only; rw [unused]) trivial
    | some k =>
      by_cases root : dev = rootdev
      · cases found : s.freeSlot .inbuiltfs with
        | none =>
          refine .of_error (e := .outOfBounds) ?_ trivial
          rw [iget,hit]
          dsimp only
          rw [unused,found]
          exact if_pos root
        | some i =>
          refine .of_ok (by rw [iget,hit]; dsimp only; rw [unused,found]; exact if_pos root) ?_
          exact change_claimed unused hit found Nat.one_pos (if_pos root) rfl rfl
      · cases found : s.freeSlot .ext2fs with
        | none =>
          refine .of_error (e := .outOfBounds) ?_ trivial
          rw [iget,hit]
          dsimp only
          rw [unused,found]
          exact if_neg root
        | some i =>
          refine .of_ok (by rw [iget,hit]; dsimp only; rw [unused,found]; exact if_neg root) ?_
          exact change_claimed unused hit found Nat.one_pos (if_neg root) rfl rfl

private theorem held_changes {call : Exec Fault State Unit} {post : Unit → State → Prop}
    (changes : s.Live k → Meets call s post (fun _ => True)) : Meets (held k call) s post (fun _ => True) := by
  by_cases idle : (s.inode k).ref = 0
  · exact .of_error (if_pos idle) trivial
  · rw [Meets,held,if_neg idle]
    exact changes (Nat.pos_of_ne_zero idle)

private theorem through_changes {inbuilt ext2 : Exec Fault State Unit} {post : Unit → State → Prop}
    (first : (s.inode k).fileType = some .inbuiltfs → Meets inbuilt s post (fun _ => True))
    (second : (s.inode k).fileType = some .ext2fs → Meets ext2 s post (fun _ => True)) :
    Meets (through k inbuilt ext2) s post (fun _ => True) := by
  cases type : (s.inode k).fileType with
  | none => exact .of_error (by rw [through,type]) trivial
  | some fs =>
    cases fs with
    | inbuiltfs =>
      rw [Meets,through,type]
      exact first type
    | ext2fs =>
      rw [Meets,through,type]
      exact second type

private theorem lockWith_changes {retype : Option FsType → Option FsType} (live : s.Live k) (disk : Copy)
    (same : retype (s.inode k).fileType = (s.inode k).fileType) :
    Meets (lockWith retype k disk) s (fun _ s' => Change s s') (fun _ => True) := by
  unfold Meets lockWith
  dsimp only
  split_ifs
  any_goals trivial
  · exact .kept k _ live live rfl rfl rfl rfl
  · exact .kept k _ live live rfl rfl same rfl

private theorem dropRef_changes {last : Entry → Entry} {e : Entry} (live : s.Live k) (last_ref : ∀ e, (last e).ref = e.ref)
    (ref : e.ref = (s.inode k).ref) (dev : e.dev = (s.inode k).dev) (inum : e.inum = (s.inode k).inum)
    (more : 1 < (s.inode k).ref → e.fileType = (s.inode k).fileType ∧ e.addrs = (s.inode k).addrs) :
    Meets (dropRef last k e (s.inode k).addrs) s (fun _ s' => Change s s') (fun _ => True) := by
  have positive : 0 < (s.inode k).ref := live
  unfold Meets dropRef
  dsimp only
  split_ifs with gone
  · cases addrs : (s.inode k).addrs with
    | none => trivial
    | some ad => exact .dropped k _ ad live (by rw [last_ref]; exact gone) addrs
  · obtain ⟨fileType,addrs⟩ := more (by omega)
    exact .kept k _ live (Nat.pos_of_ne_zero gone) dev inum fileType addrs

private theorem frees_last {e : Entry} (frees : e.frees = true) : e.ref = 1 := by
  simp only [Entry.frees,Bool.and_eq_true,beq_iff_eq] at frees
  exact frees.2

private theorem put_changes {x : Exec Fault State Unit} {last : Entry → Entry} {e : Entry} (live : s.Live k)
    (body : x s = if (s.inode k).locked then .error .deadlock
      else if (s.inode k).frees then dropRef last k e (s.inode k).addrs s
      else dropRef last k (s.inode k) (s.inode k).addrs s)
    (last_ref : ∀ e, (last e).ref = e.ref) (ref : e.ref = (s.inode k).ref) (dev : e.dev = (s.inode k).dev)
    (inum : e.inum = (s.inode k).inum) : Meets x s (fun _ s' => Change s s') (fun _ => True) := by
  rw [Meets,body]
  split_ifs with locked frees
  · trivial
  · exact dropRef_changes live last_ref ref dev inum (fun more => absurd (frees_last frees) (by omega))
  · exact dropRef_changes live last_ref rfl rfl rfl (fun _ => ⟨rfl,rfl⟩)

theorem Op.run_changes (op : Op) : Meets op.run s (fun _ s' => Change s s') (fun _ => True) := by
  cases op with
  | iget dev inum => exact (iget_changes dev inum s).bind (fun _ _ change => .pure_intro change)
  | idup k =>
    exact held_changes (fun live => .of_ok rfl (.kept k _ live (Nat.succ_pos _) rfl rfl rfl rfl))
  | ilock k disk =>
    refine held_changes (fun live => through_changes (fun type => ?_) (fun _ => ?_))
    · exact lockWith_changes live disk type.symm
    · exact lockWith_changes live disk rfl
  | iunlock k =>
    refine held_changes (fun live => ?_)
    have changes : Meets (Icache.iunlock k) s (fun _ s' => Change s s') (fun _ => True) := by
      unfold Meets Icache.iunlock
      dsimp only
      split_ifs
      · trivial
      · exact .kept k _ live live rfl rfl rfl rfl
    exact through_changes (fun _ => changes) (fun _ => changes)
  | edit k copy => exact held_changes (fun live => .of_ok rfl (.kept k _ live live rfl rfl rfl rfl))
  | iput k =>
    exact held_changes (fun live => through_changes (fun _ => put_changes live rfl (fun _ => rfl) rfl rfl rfl)
      (fun _ => put_changes live rfl (fun _ => rfl) rfl rfl rfl))

theorem Accounted.freeSlot_found (acc : Accounted s) (unused : ¬s.Live k) (pool : FsType) :
    ∃ i, s.freeSlot pool = some i := by
  rw [← Option.isSome_iff_exists,State.freeSlot,List.find?_isSome]
  by_contra full
  push Not at full
  have busy (i : Fin ninode) : s.busy pool i = true := by
    have taken := full i (List.mem_finRange i)
    rwa [Ne,Bool.not_eq_true',Bool.not_eq_false] at taken
  choose owner live holds using fun i => acc.owned pool i (busy i)
  have injective : Injective owner := by
    intro i j same
    have slots := holds i
    rw [same,holds j,Option.some.injEq,Addrs.mk.injEq] at slots
    exact slots.2.symm
  obtain ⟨i,here⟩ := Finite.surjective_of_injective injective k
  exact unused (here ▸ live i)

theorem zeroed_accounted : Accounted zeroed where
  unique _ _ live := absurd live (Nat.lt_irrefl 0)
  typed _ live := absurd live (Nat.lt_irrefl 0)
  slot _ live := absurd live (Nat.lt_irrefl 0)
  apart _ _ live := absurd live (Nat.lt_irrefl 0)
  owned _ _ busy := by cases busy

theorem runAll_accounted (acc : Accounted s) (ops : List Op) :
    Meets (runAll ops) s (fun _ s' => Accounted s') (fun _ => True) := by
  induction ops generalizing s with
  | nil => exact .pure_intro acc
  | cons op ops ih => exact op.run_changes.bind (fun _ _ change => ih (change.accounted acc))

end

/-- After every sequence of completed calls the tables are in order, and an `iget` that finds an empty
entry finds a slot of either pool below `NINODE`. -/
theorem icache_accounting {ops : List Op} {s : State} (ran : runAll ops zeroed = .ok ((),s)) :
    Accounted s ∧ ∀ k, s.empty = some k → ∀ pool, ∃ i, s.freeSlot pool = some i := by
  have acc : Accounted s := (runAll_accounted zeroed_accounted ops).result ran
  refine ⟨acc,fun k unused => ?_⟩
  have idle := List.find?_some unused
  rw [decide_eq_true_eq] at idle
  have absent : ¬s.Live k := by
    rw [State.Live,idle]
    exact Nat.lt_irrefl 0
  exact acc.freeSlot_found absent

/-- An inode of either file system is looked up; the one on `ROOTDEV` is loaded with no links left and put. -/
private def both : List Op :=
  [.iget 1 7,.iget 2 7,.ilock 0 ⟨2,0,0,0,0⟩,.iunlock 0,.iput 0,.iget 2 7]

theorem icache_accounting_both : ∃ s, runAll both zeroed = .ok ((),s) ∧ (s.inode 1).ref = 2 ∧ s.empty = some 0 ∧
    Accounted s ∧ ∀ k, s.empty = some k → ∀ pool, ∃ i, s.freeSlot pool = some i := by
  have outcome : probe (runAll both) zeroed (fun _ s => some ((s.inode 1).ref,s.empty)) = some (2,some 0) := by
    decide +kernel
  obtain ⟨_,s,ran,seen⟩ := probe_eq_some outcome
  simp only [Option.some.injEq,Prod.mk.injEq] at seen
  exact ⟨s,ran,seen.1,seen.2,icache_accounting ran⟩

end Xv6Ext2.Icache
