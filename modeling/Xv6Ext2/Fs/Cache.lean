import Xv6Ext2.Fs.Commit
import Xv6Ext2.Fs.FileCalls

/-! The inode cache over the device, for one process at a time: references, sleep-locks, and the copy that
an entry has of an inode once it is loaded. -/
namespace Xv6Ext2.Fs
open Lib Bio Log Function

/-- The entry of an inode; there is none while `ref` is 0. `copy` is what it holds once `valid` is set. -/
structure Entry where
  ref : Nat
  locked : Bool
  copy : Option Inode

/-- `NINODE` -/
def ninode : Nat := 50

/-- Both file systems share the entries: `entries` are the inodes of this one that have one, and `elsewhere` is the
number of entries that the other one has. -/
structure Kernel where
  sys : Sys
  cache : UInt32 → Entry
  entries : Finset UInt32
  elsewhere : Nat
  cached : ∀ i, i ∈ entries ↔ (cache i).ref ≠ 0

abbrev M := Exec Fault Kernel

def onSys {α : Type} (x : P α) : M α := fun k =>
  match x k.sys with
  | .ok (a,s) => .ok (a,{k with sys := s})
  | .error e => .error e

def Kernel.set (k : Kernel) (i : UInt32) (e : Entry) : Kernel where
  sys := k.sys
  cache := update k.cache i e
  entries := if e.ref = 0 then k.entries.erase i else insert i k.entries
  elsewhere := k.elsewhere
  cached j := by
    by_cases same : j = i
    · split_ifs with zero <;> simp [same,zero]
    · split_ifs <;> simp [same,k.cached]

def iget (i : UInt32) : M Unit := fun k =>
  if (k.cache i).ref = 0 then
    if ninode ≤ k.elsewhere + k.entries.card then .error (.panic "iget: no inodes")
    else .ok ((),k.set i {k.cache i with ref := 1, copy := none})
  else .ok ((),k.set i {k.cache i with ref := (k.cache i).ref + 1})

/-- `acquiresleep(&ip->lock)`: nobody else is there to release the lock. -/
def acquire (i : UInt32) : M Unit := fun k =>
  if (k.cache i).locked then .error .deadlock else .ok ((),k.set i {k.cache i with locked := true})

def release (i : UInt32) : M Unit := fun k => .ok ((),k.set i {k.cache i with locked := false})

def inode (i : UInt32) : M Inode := fun k =>
  match (k.cache i).copy with
  | some ip => .ok (ip,k)
  | none => .error .dangling

def setInode (i : UInt32) (ip : Inode) : M Unit := fun k => .ok ((),k.set i {k.cache i with copy := some ip})

/-- `if(ip->valid == 0)`: load the inode. -/
def fill (fs : Volume) (i : UInt32) : M Unit := fun k =>
  match (k.cache i).copy with
  | some _ => .ok ((),k)
  | none => (onSys (loadInode fs i) >>= setInode i) k

def ilock (fs : Volume) (i : UInt32) : M Unit := fun k =>
  if (k.cache i).ref < 1 then .error (.panic "ilock") else (acquire i >>= fun _ => fill fs i) k

def iunlock (i : UInt32) : M Unit := fun k =>
  if ¬(k.cache i).locked ∨ (k.cache i).ref < 1 then .error (.panic "iunlock") else release i k

/-- `ip->valid && ip->nlink == 0`, and no other references. -/
def Entry.Unlinked (e : Entry) : Prop := e.ref = 1 ∧ (e.copy.map Inode.nlink) = some 0

instance (e : Entry) : Decidable e.Unlinked := inferInstanceAs (Decidable (_ ∧ _))

/-- The free path of `iput`. -/
def freeInode (fs : Volume) (i : UInt32) : M Unit := do
  let ip ← inode i
  let ip ← onSys (itrunc fs ip)
  onSys (iupdate fs {ip with type := 0})
  fun k => .ok ((),k.set i {k.cache i with copy := none})

def unref (i : UInt32) : M Unit := fun k => .ok ((),k.set i {k.cache i with ref := (k.cache i).ref - 1})

def iput (fs : Volume) (i : UInt32) : M Unit := do
  acquire i
  (fun k => if (k.cache i).Unlinked then freeInode fs i k else .ok ((),k))
  release i
  unref i

def iunlockput (fs : Volume) (i : UInt32) : M Unit := do
  iunlock i
  iput fs i

/-- `readi` of an inode that is locked. -/
def readInode (fs : Volume) (i : UInt32) (dst : Nat → UInt8) (off n : UInt32) : M (UInt32 × (Nat → UInt8)) := do
  let (ret,dst,ip) ← onSys (readi fs (← inode i) dst off n)
  setInode i ip
  return (ret,dst)

/-- `writei` of an inode that is locked. -/
def writeInode (fs : Volume) (i : UInt32) (src : Nat → UInt8) (off n : UInt32) : M UInt32 := do
  let (ret,ip) ← onSys (writei fs (← inode i) src off n)
  setInode i ip
  return ret

/-- `iget` finds the inode, or an entry for it. -/
def Kernel.Room (k : Kernel) (i : UInt32) : Prop := (k.cache i).ref ≠ 0 ∨ k.elsewhere + k.entries.card < ninode

instance (k : Kernel) (i : UInt32) : Decidable (k.Room i) := inferInstanceAs (Decidable (_ ∨ _))

/-- What the kernel looks like in the middle of a system call: the device as in `Track`, `m` entries of the other
file system, `refs` references to each inode, those of `held` locked and loaded, and every copy equal to the inode on disk. -/
structure Steady (fs : Volume) (m : Nat) (k : Kernel) (v : Blockno → Block) (refs : UInt32 → Nat)
    (held : Finset UInt32) (budget : Finset Blockno) : Prop where
  track : Track fs k.sys v ∅ ∅ budget
  counted : ∀ i, (k.cache i).ref = refs i
  locked : ∀ i, (k.cache i).locked = decide (i ∈ held)
  loaded : ∀ i ∈ held, 1 ≤ refs i ∧ (k.cache i).copy = some (files fs v i)
  copies : ∀ i ip, 1 ≤ refs i → (k.cache i).copy = some ip → (files fs v i).type ≠ 0 ∧ ip = files fs v i
  elsewhere : k.elsewhere = m
  few : m + k.entries.card ≤ ninode

section Steps

variable {fs : Volume} {m : Nat} {k k' : Kernel} {v v' : Blockno → Block} {refs : UInt32 → Nat} {held : Finset UInt32}
  {budget : Finset Blockno} {i : UInt32} {α : Type} {post : α → Kernel → Prop} {fail : Fault → Prop}

theorem onSys_ok {x : P α} {a : α} {s : Sys} (ran : x k.sys = .ok (a,s)) : onSys x k = .ok (a,{k with sys := s}) := by
  rw [onSys,ran]

theorem onSys_meets {x : P α} {mid : α → Sys → Prop} (meets : Meets x k.sys mid fail) :
    Meets (onSys x) k (fun a k' => ∃ s, k' = {k with sys := s} ∧ mid a s) fail := by
  cases ran : x k.sys with
  | error e =>
    rw [Meets,ran] at meets
    exact .of_error (by rw [onSys,ran]) meets
  | ok result => exact .of_ok (onSys_ok ran) ⟨_,rfl,meets.result ran⟩

theorem allocated_iff : Allocated fs v i ↔ (files fs v i).type ≠ 0 := by
  refine ⟨Allocated.type,fun type => ?_⟩
  by_contra free
  have blank : files fs v i = blankInode i 0 := if_neg free
  rw [blank] at type
  exact type rfl

@[simp] theorem Kernel.set_self (k : Kernel) (i : UInt32) (e : Entry) : (k.set i e).cache i = e :=
  update_self _ _ _

theorem Kernel.set_of_ne (k : Kernel) {i j : UInt32} (other : j ≠ i) (e : Entry) : (k.set i e).cache j = k.cache j :=
  update_of_ne other _ _

/-- The entries follow from the rest. -/
theorem Kernel.eq_of_cache (sys : k.sys = k'.sys) (cache : k.cache = k'.cache) (elsewhere : k.elsewhere = k'.elsewhere) : k = k' := by
  have entries : k.entries = k'.entries := by
    apply Finset.ext
    intro i
    rw [k.cached,k'.cached,cache]
  cases k
  cases k'
  simp_all

theorem Kernel.set_set (k : Kernel) (i : UInt32) (e e' : Entry) : (k.set i e).set i e' = k.set i e' :=
  Kernel.eq_of_cache rfl (update_idem _ _ _) rfl

theorem Kernel.card_set (e : Entry) (room : e.ref = 0 ∨ k.Room i) (few : k.elsewhere + k.entries.card ≤ ninode) :
    k.elsewhere + (k.set i e).entries.card ≤ ninode := by
  have less := Finset.card_erase_le (s := k.entries) (a := i)
  rw [Kernel.set]
  dsimp only
  split_ifs with zero
  · omega
  · rcases room.resolve_left zero with there | free
    · rw [Finset.insert_eq_of_mem ((k.cached i).mpr there)]
      exact few
    · have more := Finset.card_insert_le i k.entries
      omega

variable (steady : Steady fs m k v refs held budget)

include steady

theorem Steady.mem_entries {j : UInt32} : j ∈ k.entries ↔ refs j ≠ 0 := by
  rw [k.cached,steady.counted]

theorem Steady.room {held' : Finset UInt32} {budget' : Finset Blockno}
    (before : Steady fs m k' v' refs held' budget') (room : k'.Room i) : k.Room i := by
  have entries : k.entries = k'.entries := by
    apply Finset.ext
    intro j
    rw [steady.mem_entries,before.mem_entries]
  rwa [Kernel.Room,steady.counted,steady.elsewhere,entries,← before.elsewhere,← before.counted]

omit steady in
/-- An entry that `iput` has freed is there for the next `iget`. -/
theorem Steady.room_put (steady : Steady fs m k v (update refs i (refs i - 1)) held budget) {held' : Finset UInt32}
    {budget' : Finset Blockno} (before : Steady fs m k' v' refs held' budget') (known : 1 ≤ refs i) : k.Room i := by
  by_cases last : refs i = 1
  · have fewer : k.entries.card < k'.entries.card := by
      refine Finset.card_lt_card (Finset.ssubset_iff_of_subset (fun j => ?_) |>.mpr ⟨i,?_,?_⟩)
      · rw [steady.mem_entries,before.mem_entries]
        by_cases same : j = i
        · rw [same,update_self]
          omega
        · rw [update_of_ne same]
          exact id
      · rw [before.mem_entries]
        omega
      · rw [steady.mem_entries,update_self]
        omega
    have few := before.few
    exact .inr (by rw [steady.elsewhere]; omega)
  · exact .inl (by rw [steady.counted,update_self]; omega)

theorem Steady.set {e : Entry} {n : Nat} {h : Finset UInt32}
    (room : n = 0 ∨ k.Room i) (count : e.ref = n) (lock : e.locked = decide (i ∈ h)) (others : ∀ j, j ≠ i → (j ∈ h ↔ j ∈ held))
    (load : i ∈ h → 1 ≤ n ∧ e.copy = some (files fs v i))
    (copy : ∀ ip, 1 ≤ n → e.copy = some ip → (files fs v i).type ≠ 0 ∧ ip = files fs v i) :
    Steady fs m (k.set i e) v (update refs i n) h budget := by
  have few := k.card_set e (by rw [count]; exact room) (by rw [steady.elsewhere]; exact steady.few)
  rw [steady.elsewhere] at few
  refine ⟨steady.track,fun j => ?_,fun j => ?_,fun j => ?_,fun j => ?_,steady.elsewhere,few⟩ <;>
  by_cases same : j = i
  · rw [same,Kernel.set_self,update_self,count]
  · rw [k.set_of_ne same,update_of_ne same,steady.counted]
  · rw [same,Kernel.set_self,lock]
  · rw [k.set_of_ne same,steady.locked]
    exact decide_eq_decide.mpr (others j same).symm
  · rw [same,Kernel.set_self,update_self]
    exact load
  · rw [k.set_of_ne same,update_of_ne same,others j same]
    exact steady.loaded j
  · rw [same,Kernel.set_self,update_self]
    exact copy
  · rw [k.set_of_ne same,update_of_ne same]
    exact steady.copies j

theorem Steady.set_same {e : Entry} {h : Finset UInt32}
    (known : 1 ≤ refs i) (count : e.ref = refs i) (lock : e.locked = decide (i ∈ h)) (others : ∀ j, j ≠ i → (j ∈ h ↔ j ∈ held))
    (load : i ∈ h → 1 ≤ refs i ∧ e.copy = some (files fs v i))
    (copy : ∀ ip, 1 ≤ refs i → e.copy = some ip → (files fs v i).type ≠ 0 ∧ ip = files fs v i) :
    Steady fs m (k.set i e) v refs h budget := by
  have changed := steady.set (.inr (.inl (by rw [steady.counted]; omega))) count lock others load copy
  rwa [update_eq_self] at changed

theorem iget_step {f : Unit → M α} (room : k.Room i) (rest : ∀ k', Steady fs m k' v (update refs i (refs i + 1)) held budget →
      (refs i = 0 → (k'.cache i).copy = none) → Meets (f ()) k' post fail) :
    Meets (iget i >>= f) k post fail := by
  have count := steady.counted i
  by_cases fresh : refs i = 0
  · have ran : iget i k = .ok ((),k.set i {k.cache i with ref := 1, copy := none}) := by
      have free := room.resolve_left (not_not.mpr (count.trans fresh))
      rw [iget,if_pos (count.trans fresh),if_neg (Nat.not_le.mpr free)]
    refine .step ran (rest _ (steady.set (.inr room) (by rw [fresh]) (steady.locked i) (fun _ _ => Iff.rfl) ?_ ?_) fun _ => by simp)
    · intro member
      have := (steady.loaded i member).1
      omega
    · intro ip _ none
      cases none
  · have ran : iget i k = .ok ((),k.set i {k.cache i with ref := (k.cache i).ref + 1}) := by
      rw [iget,if_neg (by rw [count]; exact fresh)]
    refine .step ran (rest _ (steady.set (.inr room) (congrArg (· + 1) count) (steady.locked i) (fun _ _ => Iff.rfl) ?_ ?_)
      (fun zero => absurd zero fresh))
    · intro member
      exact ⟨Nat.le_add_left _ _,(steady.loaded i member).2⟩
    · intro ip _
      exact steady.copies i ip (by omega)

theorem inode_step {f : Inode → M α} (mine : i ∈ held)
    (rest : Meets (f (files fs v i)) k post fail) : Meets (inode i >>= f) k post fail := by
  have ran : inode i k = .ok (files fs v i,k) := by rw [inode,(steady.loaded i mine).2]
  exact .step ran rest

theorem acquire_run (free : i ∉ held) :
    acquire i k = .ok ((),k.set i {k.cache i with locked := true}) := by
  have unlocked : (k.cache i).locked = false := by rw [steady.locked,decide_eq_false_iff_not]; exact free
  rw [acquire,if_neg (by rw [unlocked]; exact Bool.false_ne_true)]

theorem ilock_step {f : Unit → M α} (free : i ∉ held) (known : 1 ≤ refs i) (here : Allocated fs v i)
    (rest : ∀ k', Steady fs m k' v refs (insert i held) budget → Meets (f ()) k' post fail) :
    Meets (ilock fs i >>= f) k post fail := by
  have count := steady.counted i
  have record := files_of_allocated here
  have others (j : UInt32) (other : j ≠ i) : j ∈ insert i held ↔ j ∈ held := by
    simp [other]
  suffices locks : Meets (ilock fs i) k (fun _ k' => Steady fs m k' v refs (insert i held) budget) fail from
    locks.bind (fun _ => rest)
  have enter : ilock fs i k = fill fs i (k.set i {k.cache i with locked := true}) := by
    rw [ilock,if_neg (by omega)]
    exact bind_ok (acquire_run steady free) _
  rw [Meets,enter]
  cases copied : (k.cache i).copy with
  | some ip =>
    obtain ⟨type,rfl⟩ := steady.copies i ip known copied
    have ran : fill fs i (k.set i {k.cache i with locked := true}) = .ok ((),k.set i {k.cache i with locked := true}) := by
      rw [fill,Kernel.set_self,copied]
    refine Meets.of_ok ran (steady.set_same known count (by simp) others (fun _ => ⟨known,copied⟩) ?_)
    intro ip _ same
    rw [copied] at same
    exact ⟨type,(Option.some.inj same).symm⟩
  | none =>
    have load := onSys_meets (k := k.set i {k.cache i with locked := true})
      (loadInode_meets steady.track (by rw [← record]; exact here.type) : Meets (loadInode fs i) k.sys _ fail)
    have enter' : fill fs i (k.set i {k.cache i with locked := true}) =
        (onSys (loadInode fs i) >>= setInode i) (k.set i {k.cache i with locked := true}) := by
      rw [fill,Kernel.set_self,copied]
    rw [enter']
    refine load.bind ?_
    rintro ip _ ⟨s₁,rfl,rfl,track₁⟩
    refine .of_ok rfl ?_
    have moved : Steady fs m {k with sys := s₁} v refs held budget := {steady with track := track₁}
    have changed := moved.set_same (i := i) (e := ⟨(k.cache i).ref,true,some (files fs v i)⟩) (h := insert i held) known count (by simp)
      others (fun _ => ⟨known,rfl⟩) (fun ip _ same => ⟨here.type,(Option.some.inj same).symm⟩)
    rw [record] at changed
    change Steady fs m ((({k with sys := s₁} : Kernel).set i {k.cache i with locked := true}).set i _) v refs (insert i held) budget
    rw [Kernel.set_set,Kernel.set_self]
    exact changed

omit steady in
theorem iunlock_last (steady : Steady fs m k v refs (insert i held) budget) (once : i ∉ held) :
    Meets (iunlock i) k (fun _ k' => Steady fs m k' v refs held budget) fail := by
  have mine := Finset.mem_insert_self i held
  obtain ⟨known,copied⟩ := steady.loaded i mine
  have count := steady.counted i
  have locked : (k.cache i).locked = true := by rw [steady.locked,decide_eq_true_eq]; exact mine
  have ran : iunlock i k = .ok ((),k.set i {k.cache i with locked := false}) := by
    rw [iunlock,if_neg (by rw [locked,count]; simp; omega)]
    rfl
  exact .of_ok ran (steady.set_same known count (by simp [once]) (fun j other => by simp [other]) (fun member => absurd member once)
    (steady.copies i))

omit steady in
theorem iunlock_step {f : Unit → M α} (steady : Steady fs m k v refs (insert i held) budget) (once : i ∉ held)
    (rest : ∀ k', Steady fs m k' v refs held budget → Meets (f ()) k' post fail) : Meets (iunlock i >>= f) k post fail :=
  (iunlock_last steady once).bind (fun _ k' => rest k')

theorem Steady.not_unlinked (known : 1 ≤ refs i) (kept : refs i ≠ 1 ∨ (files fs v i).nlink ≠ 0) : ¬(k.cache i).Unlinked := by
  rintro ⟨single,zero⟩
  obtain ⟨ip,copied,none⟩ := Option.map_eq_some_iff.mp zero
  obtain ⟨-,rfl⟩ := steady.copies i ip known copied
  rcases kept with several | some
  · exact several ((steady.counted i).symm.trans single)
  · exact some none

theorem iput_kept (free : i ∉ held) (kept : ¬(k.cache i).Unlinked) :
    Meets (iput fs i) k (fun _ k' => Steady fs m k' v (update refs i (refs i - 1)) held budget) fail := by
  have count := steady.counted i
  have linked : ¬((k.set i {k.cache i with locked := true}).cache i).Unlinked := by
    rw [Kernel.set_self]
    exact kept
  refine .step (acquire_run steady free) ?_
  refine .step (a := ()) (t := k.set i {k.cache i with locked := true}) (by rw [if_neg linked]) ?_
  refine .of_ok rfl ?_
  have room : refs i - 1 = 0 ∨ k.Room i := by
    rw [Kernel.Room,count]
    omega
  have changed := steady.set (i := i) (e := ⟨refs i - 1,false,(k.cache i).copy⟩) (n := refs i - 1) (h := held) room rfl
    (by simp [free]) (fun _ _ => Iff.rfl) (fun member => absurd member free)
    (fun ip positive => steady.copies i ip (by omega))
  simp only [Kernel.set_set,Kernel.set_self,count]
  exact changed

theorem iput_last (free : i ∉ held) (known : 1 ≤ refs i) (kept : refs i ≠ 1 ∨ (files fs v i).nlink ≠ 0) :
    Meets (iput fs i) k (fun _ k' => Steady fs m k' v (update refs i (refs i - 1)) held budget) fail :=
  iput_kept steady free (steady.not_unlinked known kept)

theorem iput_step {f : Unit → M α} (free : i ∉ held) (known : 1 ≤ refs i) (kept : refs i ≠ 1 ∨ (files fs v i).nlink ≠ 0)
    (rest : ∀ k', Steady fs m k' v (update refs i (refs i - 1)) held budget → Meets (f ()) k' post fail) :
    Meets (iput fs i >>= f) k post fail :=
  (iput_last steady free known kept).bind (fun _ k' => rest k')

omit steady in
theorem iunlockput_last (steady : Steady fs m k v refs (insert i held) budget) (once : i ∉ held)
    (kept : refs i ≠ 1 ∨ (files fs v i).nlink ≠ 0) :
    Meets (iunlockput fs i) k (fun _ k' => Steady fs m k' v (update refs i (refs i - 1)) held budget) fail :=
  iunlock_step steady once fun _ steady' =>
    iput_last steady' once (steady.loaded i (Finset.mem_insert_self _ _)).1 kept

theorem Steady.changed (mine : i ∈ held) {s' : Sys} {budget' : Finset Blockno}
    (track : Track fs s' v' ∅ ∅ budget') (type : (files fs v' i).type ≠ 0)
    (others : ∀ j, j ≠ i → files fs v' j = files fs v j) :
    Steady fs m (({k with sys := s'} : Kernel).set i {k.cache i with copy := some (files fs v' i)}) v' refs held budget' := by
  have known := (steady.loaded i mine).1
  have few := ({k with sys := s'} : Kernel).card_set {k.cache i with copy := some (files fs v' i)}
    (.inr (.inl (by show (k.cache i).ref ≠ 0; rw [steady.counted]; omega))) (by show k.elsewhere + _ ≤ _; rw [steady.elsewhere]; exact steady.few)
  refine ⟨track,fun j => ?_,fun j => ?_,fun j member => ?_,fun j ip positive copied => ?_,steady.elsewhere,
    by rw [← steady.elsewhere]; exact few⟩ <;>
  by_cases same : j = i
  · rw [same,Kernel.set_self]
    exact steady.counted i
  · rw [Kernel.set_of_ne _ same]
    exact steady.counted j
  · rw [same,Kernel.set_self]
    exact steady.locked i
  · rw [Kernel.set_of_ne _ same]
    exact steady.locked j
  · rw [same,Kernel.set_self]
    exact ⟨(steady.loaded i mine).1,rfl⟩
  · rw [Kernel.set_of_ne _ same,others j same]
    exact steady.loaded j member
  · rw [same,Kernel.set_self] at copied
    rw [same]
    exact ⟨type,(Option.some.inj copied).symm⟩
  · rw [Kernel.set_of_ne _ same] at copied
    rw [others j same]
    exact steady.copies j ip positive copied

variable {off n : UInt32}

theorem Steady.unchanged (mine : i ∈ held) {s' : Sys} (track : Track fs s' v ∅ ∅ budget) :
    Steady fs m (({k with sys := s'} : Kernel).set i {k.cache i with copy := some (files fs v i)}) v refs held budget :=
  steady.changed mine track (steady.copies i _ (steady.loaded i mine).1 (steady.loaded i mine).2).1 (fun _ _ => rfl)

theorem readInode_beyond (mine : i ∈ held) (kind : (files fs v i).type ≠ tDev)
    (beyond : Beyond (files fs v i) off n) (dst : Nat → UInt8) :
    Meets (readInode fs i dst off n) k (fun r k' => r = (minusOne,dst) ∧ Steady fs m k' v refs held budget) fail := by
  refine inode_step steady mine ?_
  refine .step (onSys_ok (readi_beyond kind beyond dst)) (.of_ok rfl ⟨rfl,steady.unchanged mine steady.track⟩)

theorem readInode_meets (mine : i ∈ held) (kind : (files fs v i).type ≠ tDev)
    (present : Present (files fs v) v i off.toNat (readLength (files fs v i) off n)) (inside : ¬Beyond (files fs v i) off n) (dst : Nat → UInt8) :
    Meets (readInode fs i dst off n) k
      (fun r k' => r = (UInt32.ofNat (readLength (files fs v i) off n),
          poke dst 0 (readLength (files fs v i) off n) (fun j => content (files fs v) v i (off.toNat + j))) ∧
        Steady fs m k' v refs held budget) fail := by
  refine inode_step steady mine ?_
  refine (onSys_meets (readi_meets steady.track kind present inside dst)).bind ?_
  rintro _ _ ⟨s₁,rfl,rfl,track₁⟩
  exact .of_ok rfl ⟨rfl,steady.unchanged mine track₁⟩

theorem writeInode_refused (mine : i ∈ held) (kind : (files fs v i).type ≠ tDev)
    (refused : Refused (files fs v i) off n) (src : Nat → UInt8) :
    Meets (writeInode fs i src off n) k (fun r k' => r = minusOne ∧ Steady fs m k' v refs held budget) fail := by
  refine inode_step steady mine ?_
  refine .step (onSys_ok (writei_refused kind refused src)) (.of_ok rfl ⟨rfl,steady.unchanged mine steady.track⟩)

omit steady in
theorem Rewrote.type {off len : Nat} {src : Nat → UInt8} (rewrote : Rewrote fs i off len src v v') :
    (files fs v' i).type = (files fs v i).type := by
  rw [rewrote.self]

theorem writeInode_meets (mine : i ∈ held) (sound : Sound fs v)
    (kind : (files fs v i).type ≠ tDev) (accepted : ¬Refused (files fs v i) off n)
    (enough : 0 < n.toNat → Enough fs i off.toNat n.toNat (files fs v) v budget)
    (full : 0 < n.toNat → OutOfBlocks fs v (need (files fs v) v i off.toNat n.toNat) fail) (src : Nat → UInt8) :
    Meets (writeInode fs i src off n) k
      (fun r k' => r = n ∧ ∃ v' budget', Rewrote fs i off.toNat n.toNat src v v' ∧
        Steady fs m k' v' refs held budget') fail := by
  obtain ⟨known,copied⟩ := steady.loaded i mine
  have type := (steady.copies i _ known copied).1
  refine inode_step steady mine ?_
  refine (onSys_meets (writei_meets steady.track sound (allocated_iff.mpr type) kind accepted enough full src)).bind ?_
  rintro _ _ ⟨s₁,rfl,v₁,budget₁,rfl,rewrote,track₁⟩
  refine .of_ok rfl ⟨rfl,v₁,budget₁,rewrote,?_⟩
  exact steady.changed mine track₁ (by rw [rewrote.type]; exact type) rewrote.others

end Steps

end Xv6Ext2.Fs
