import Mathlib
import Xv6Ext2.Lib.Bytes
import Xv6Ext2.Lib.Exec

/-! The buffer cache of one device, as the code that runs between two of its calls sees it.
A block is cached or on disk only; `bget` may first recycle any released clean buffers, chosen by
a policy that is a parameter, so that every replacement order of the NBUF list is one of the
policies. Sleep-locks of buffers are taken by one caller at a time: taking one twice blocks. Only the
log pins buffers, so that NBUF is a limit on its device alone. -/
namespace Xv6Ext2.Bio
open Lib Function

def bsize : Nat := 2048

/-- The sizes of the tables of pointers, whose indexes are written as numbers. -/
instance neZero_addrs : NeZero (13 : Nat) := ⟨by decide⟩

instance neZero_blocks : NeZero (15 : Nat) := ⟨by decide⟩

instance neZero_indirect : NeZero (512 : Nat) := ⟨by decide⟩

abbrev Block := Bytes bsize

abbrev Blockno := UInt32

inductive Fault where
  | panic (message : String)
  | deadlock
  | outOfBounds
  | dangling
  | diverges
  deriving DecidableEq, Repr

structure Buf where
  data : Block
  dirty : Bool
  locked : Bool

/-- `slots` lists the blocks that `bget` has given a buffer. -/
structure Dev where
  disk : Blockno → Block
  cache : Blockno → Option Buf
  tick : Nat
  slots : List Blockno

def cold (disk : Blockno → Block) : Dev := ⟨disk,fun _ => none,0,[]⟩

/-- Kernel code over one device: it changes the device and returns, or it never returns. -/
abbrev K := Exec Fault Dev

def put (d : Dev) (b : Blockno) (buf : Buf) : Dev :=
  {d with cache := update d.cache b (some buf)}

section Policy

variable (recycle : Dev → Blockno → Bool)

def evict (d : Dev) : Dev :=
  {d with
    cache := fun b => (d.cache b).filter (fun buf => buf.locked || buf.dirty || !recycle d b)
    tick := d.tick + 1}

/-- `bget` and the disk read of `bread`: the caller gets the buffer of block `b` locked. -/
def bread (b : Blockno) : K Unit := fun d =>
  match (evict recycle d).cache b with
  | some buf =>
    if buf.locked then .error .deadlock
    else .ok ((),put (evict recycle d) b {buf with locked := true})
  | none => .ok ((),put (evict recycle d) b ⟨d.disk b,false,true⟩)

end Policy

def nbuf : Nat := 30

/-- The buffer of block `b` cannot be recycled: it is held, or pinned by `log_write`. -/
def busy (d : Dev) (b : Blockno) : Bool :=
  match d.cache b with
  | some buf => buf.locked || buf.dirty
  | none => false

/-- `bget` where buffers are pinned: a block whose buffer is not busy gets one that was never used or can be recycled. -/
def bget (b : Blockno) : K Unit := fun d =>
  if ¬busy d b ∧ nbuf ≤ d.slots.length ∧ nbuf ≤ d.slots.countP (busy d) then .error (.panic "bget: no buffers")
  else .ok ((),{d with slots := if b ∈ d.slots then d.slots else b :: d.slots})

section Policy

variable (recycle : Dev → Blockno → Bool)

/-- A policy does no harm in `d` when each buffer it recycles holds what the disk holds. -/
def Calm (d : Dev) : Prop :=
  ∀ b buf, d.cache b = some buf → buf.locked = false → buf.dirty = false →
    recycle d b = true → buf.data = d.disk b

/-- The policy never recycles a buffer whose bytes the disk does not have. -/
def Careful : Prop := ∀ d, Calm recycle d

end Policy

/-- `b->data`, readable while the caller holds the buffer. -/
def bdata (b : Blockno) : K Block := fun d =>
  match d.cache b with
  | some buf => if buf.locked then .ok (buf.data,d) else .error .dangling
  | none => .error .dangling

/-- A store through `b->data`. -/
def bset (b : Blockno) (data : Block) : K Unit := fun d =>
  match d.cache b with
  | some buf => if buf.locked then .ok ((),put d b {buf with data := data}) else .error .dangling
  | none => .error .dangling

def bwrite (b : Blockno) : K Unit := fun d =>
  match d.cache b with
  | some buf =>
    if buf.locked then
      .ok ((),{put d b {buf with dirty := false} with disk := update d.disk b buf.data})
    else .error (.panic "bwrite")
  | none => .error (.panic "bwrite")

def brelse (b : Blockno) : K Unit := fun d =>
  match d.cache b with
  | some buf =>
    if buf.locked then .ok ((),put d b {buf with locked := false}) else .error (.panic "brelse")
  | none => .error (.panic "brelse")

/-- `b->flags |= B_DIRTY` without a write: the buffer is pinned until its next `bwrite`. -/
def bpin (b : Blockno) : K Unit := fun d =>
  match d.cache b with
  | some buf => if buf.locked then .ok ((),put d b {buf with dirty := true}) else .error .dangling
  | none => .error .dangling

/-- What the rest of the kernel can tell about a device: cached blocks read as their buffer. -/
@[ext] structure Obs where
  disk : Blockno → Block
  view : Blockno → Block
  held : Blockno → Bool
  dirty : Blockno → Bool

namespace Obs

def lock (o : Obs) (b : Blockno) : Obs := {o with held := update o.held b true}

def unlock (o : Obs) (b : Blockno) : Obs := {o with held := update o.held b false}

def set (o : Obs) (b : Blockno) (data : Block) : Obs := {o with view := update o.view b data}

def flush (o : Obs) (b : Blockno) : Obs :=
  {o with disk := update o.disk b (o.view b), dirty := update o.dirty b false}

def pin (o : Obs) (b : Blockno) : Obs := {o with dirty := update o.dirty b true}

def write (o : Obs) (b : Blockno) (data : Block) : Obs :=
  ⟨update o.disk b data,update o.view b data,o.held,update o.dirty b false⟩

theorem unlock_lock (o : Obs) (b : Blockno) (free : o.held b = false) : (o.lock b).unlock b = o := by
  simp only [lock,unlock,update_idem]
  rw [← free,update_eq_self]

theorem flush_set_lock (o : Obs) (b : Blockno) (data : Block) :
    ((o.lock b).set b data).flush b = (o.write b data).lock b := by
  simp [lock,set,flush,write]

theorem write_locked (o : Obs) (b : Blockno) (data : Block) (free : o.held b = false) :
    (((o.lock b).set b data).flush b).unlock b = o.write b data := by
  simp only [lock,unlock,set,flush,write,update_idem,update_self]
  rw [← free,update_eq_self]

end Obs

def obs (d : Dev) : Obs where
  disk := d.disk
  view b := match d.cache b with | some buf => buf.data | none => d.disk b
  held b := match d.cache b with | some buf => buf.locked | none => false
  dirty b := match d.cache b with | some buf => buf.dirty | none => false

def Settled (o : Obs) : Prop := ∀ b, o.held b = false → o.dirty b = false → o.view b = o.disk b

theorem Settled.lock {o : Obs} (settled : Settled o) (b : Blockno) : Settled (o.lock b) := by
  intro x free clean
  by_cases same : x = b
  · simp [Obs.lock,same] at free
  · exact settled x (by simpa [Obs.lock,update_of_ne same] using free) clean

theorem Settled.write {o : Obs} (settled : Settled o) (b : Blockno) (data : Block) :
    Settled (o.write b data) := by
  intro x free clean
  by_cases same : x = b
  · simp [Obs.write,same]
  · simp only [Obs.write,update_of_ne same] at clean ⊢
    exact settled x free clean

theorem calm_of_settled (recycle : Dev → Blockno → Bool) (d : Dev) (settled : Settled (obs d)) :
    Calm recycle d := by
  intro b buf cached free clean _
  have same := settled b (by simp [obs,cached,free]) (by simp [obs,cached,clean])
  simpa [obs,cached] using same

private theorem evict_entry (recycle : Dev → Blockno → Bool) (d : Dev) (b : Blockno) :
    (evict recycle d).cache b = d.cache b ∨
      ((evict recycle d).cache b = none ∧ ∃ buf, d.cache b = some buf ∧ buf.locked = false ∧
        buf.dirty = false ∧ recycle d b = true) := by
  cases cached : d.cache b with
  | none => simp [evict,cached]
  | some buf =>
    by_cases keep : (buf.locked || buf.dirty || !recycle d b) = true
    · left; simp only [evict,cached,Option.filter,keep,if_true]
    · right
      refine ⟨by simp only [evict,cached,Option.filter,keep]; rfl,buf,rfl,?_⟩
      simp only [Bool.not_eq_true,Bool.or_eq_false_iff,Bool.not_eq_false'] at keep
      exact ⟨keep.1.1,keep.1.2,keep.2⟩

theorem obs_evict (recycle : Dev → Blockno → Bool) (d : Dev) (calm : Calm recycle d) :
    obs (evict recycle d) = obs d := by
  have disk : (evict recycle d).disk = d.disk := rfl
  apply Obs.ext disk <;>
  · funext b
    rcases evict_entry recycle d b with same | ⟨gone,buf,cached,free,clean,recycled⟩
    · simp only [obs,same,disk]
    · simp [obs,disk,gone,cached,free,clean,calm b buf cached free clean recycled]

structure Drift (recycle : Dev → Blockno → Bool) (o o' : Obs) : Prop where
  disk : o'.disk = o.disk
  held : o'.held = o.held
  dirty : o'.dirty = o.dirty
  view : ∀ b, o'.view b = o.view b ∨ (o.held b = false ∧ o'.view b = o.disk b)
  careful : Careful recycle → o' = o

theorem evict_drift (recycle : Dev → Blockno → Bool) (d : Dev) :
    Drift recycle (obs d) (obs (evict recycle d)) := by
  have disk : (evict recycle d).disk = d.disk := rfl
  refine ⟨disk,?_,?_,?_,fun careful => obs_evict recycle d (careful d)⟩
  · funext b
    rcases evict_entry recycle d b with same | ⟨gone,buf,cached,free,-,-⟩
    · simp only [obs,same]
    · simp [obs,gone,cached,free]
  · funext b
    rcases evict_entry recycle d b with same | ⟨gone,buf,cached,-,clean,-⟩
    · simp only [obs,same]
    · simp [obs,gone,cached,clean]
  · intro b
    rcases evict_entry recycle d b with same | ⟨gone,buf,cached,free,-,-⟩
    · left; simp only [obs,same,disk]
    · right; simp [obs,gone,cached,free,disk]

namespace Drift

variable {recycle : Dev → Blockno → Bool} {o o' o₁ : Obs}

theorem trans (first : Drift recycle o o') (second : Drift recycle o' o₁) : Drift recycle o o₁ := by
  refine ⟨second.disk.trans first.disk,second.held.trans first.held,second.dirty.trans first.dirty,?_,
    fun careful => (second.careful careful).trans (first.careful careful)⟩
  intro b
  rcases second.view b with same | ⟨free,read⟩
  · rw [same]; exact first.view b
  · rw [first.held] at free; rw [first.disk] at read
    exact .inr ⟨free,read⟩

theorem view_eq (drift : Drift recycle o o') {b : Blockno}
    (stable : Careful recycle ∨ o.view b = o.disk b) : o'.view b = o.view b := by
  rcases stable with careful | same
  · rw [drift.careful careful]
  · rcases drift.view b with kept | ⟨_,read⟩
    · exact kept
    · rw [read,same]

theorem of_lock {b : Blockno} (drift : Drift recycle (o.lock b) o') :
    ∃ o₁, Drift recycle o o₁ ∧ o' = o₁.lock b := by
  refine ⟨{o' with held := o.held},⟨drift.disk,rfl,drift.dirty,fun x => ?_,fun careful => ?_⟩,?_⟩
  · rcases drift.view x with same | ⟨free,read⟩
    · exact .inl same
    · refine .inr ⟨?_,read⟩
      simp only [Obs.lock,update_apply] at free
      split_ifs at free
      exact free
  · rw [drift.careful careful]
    rfl
  · refine Obs.ext rfl rfl ?_ rfl
    exact drift.held

/-- What drifts after a change to a held block has drifted before it. -/
private theorem of_change {b : Blockno} {data : Block} (drift : Drift recycle o₁ o') (view : o₁.view = update o.view b data)
    (held : o₁.held = update o.held b true) (disk : ∀ x, x ≠ b → o₁.disk x = o.disk x) :
    ∃ v, Drift recycle o {o with view := v} ∧ o' = {o₁ with view := update v b data} := by
  have kept : o'.view b = data := by
    rcases drift.view b with same | ⟨free,-⟩
    · rw [same,view,update_self]
    · rw [held,update_self] at free
      cases free
  refine ⟨update o'.view b (o.view b),⟨rfl,rfl,rfl,fun x => ?_,fun careful => ?_⟩,?_⟩
  · by_cases same : x = b
    · simp [same]
    · simpa [view,held,disk x same,update_of_ne same] using drift.view x
  · simp [drift.careful careful,view]
  · refine Obs.ext drift.disk ?_ drift.held drift.dirty
    rw [update_idem,← kept,update_eq_self]

theorem of_write {b : Blockno} {data : Block} (drift : Drift recycle ((o.write b data).lock b) o') :
    ∃ o₁, Drift recycle o o₁ ∧ o' = (o₁.write b data).lock b := by
  obtain ⟨v,before,rfl⟩ := drift.of_change rfl rfl (fun x other => update_of_ne other _ _)
  exact ⟨_,before,rfl⟩

theorem of_set {b : Blockno} {data : Block} (drift : Drift recycle ((o.lock b).set b data) o') :
    ∃ o₁, Drift recycle o o₁ ∧ o' = (o₁.lock b).set b data := by
  obtain ⟨v,before,rfl⟩ := drift.of_change (o := o) rfl rfl (fun _ _ => rfl)
  exact ⟨_,before,rfl⟩

end Drift

theorem obs_entry (d d' : Dev) (b : Blockno) (buf : Buf)
    (cache : d'.cache = update d.cache b (some buf))
    (disk : ∀ x, x ≠ b → d'.disk x = d.disk x) :
    obs d' = ⟨d'.disk,update (obs d).view b buf.data,update (obs d).held b buf.locked,
      update (obs d).dirty b buf.dirty⟩ := by
  refine Obs.ext (by rfl) ?_ ?_ ?_ <;>
  · funext x
    by_cases same : x = b
    · subst same; simp [obs,cache]
    · simp [obs,cache,update_of_ne same,disk x same]

private theorem update_same {α β : Type} [DecidableEq α] (f : α → β) (a : α) (v : β) (same : f a = v) :
    update f a v = f := by
  rw [← same,update_eq_self]

private theorem held_cached {d : Dev} {b : Blockno} (held : (obs d).held b = true) :
    ∃ buf, d.cache b = some buf ∧ buf.locked = true := by
  cases cached : d.cache b with
  | none => simp [obs,cached] at held
  | some buf => exact ⟨buf,rfl,by simpa [obs,cached] using held⟩

section Runs

variable {recycle : Dev → Blockno → Bool} {d : Dev} {b : Blockno}

private theorem bread_evicted (free : (obs (evict recycle d)).held b = false) :
    ∃ d', bread recycle b d = .ok ((),d') ∧ obs d' = (obs (evict recycle d)).lock b := by
  cases cached : (evict recycle d).cache b with
  | none =>
    refine ⟨put (evict recycle d) b ⟨d.disk b,false,true⟩,by simp only [bread,cached],?_⟩
    rw [obs_entry (evict recycle d) (put _ _ _) b _ rfl (fun _ _ => rfl)]
    refine Obs.ext (by rfl) ?_ (by rfl) ?_
    · exact update_same _ _ _ (by simp only [obs,cached]; rfl)
    · exact update_same _ _ _ (by simp [obs,cached])
  | some buf =>
    have unlocked : buf.locked = false := by simpa [obs,cached] using free
    refine ⟨put (evict recycle d) b {buf with locked := true},by simp [bread,cached,unlocked],?_⟩
    rw [obs_entry (evict recycle d) (put _ _ _) b _ rfl (fun _ _ => rfl)]
    refine Obs.ext (by rfl) ?_ (by rfl) ?_
    · exact update_same _ _ _ (by simp [obs,cached])
    · exact update_same _ _ _ (by simp [obs,cached])

theorem bread_run (calm : Calm recycle d) (free : (obs d).held b = false) :
    ∃ d', bread recycle b d = .ok ((),d') ∧ obs d' = (obs d).lock b := by
  rw [← obs_evict recycle d calm] at free ⊢
  exact bread_evicted free

theorem bread_drift (recycle : Dev → Blockno → Bool) (free : (obs d).held b = false) :
    ∃ d' o, bread recycle b d = .ok ((),d') ∧ Drift recycle (obs d) o ∧ obs d' = o.lock b := by
  have drift := evict_drift recycle d
  obtain ⟨d',ran,locked⟩ := bread_evicted (drift.held ▸ free)
  exact ⟨d',_,ran,drift,locked⟩

theorem bread_held (recycle : Dev → Blockno → Bool) (held : (obs d).held b = true) :
    bread recycle b d = .error .deadlock := by
  rw [← (evict_drift recycle d).held] at held
  obtain ⟨buf,cached,locked⟩ := held_cached held
  simp [bread,cached,locked]

theorem bdata_run (held : (obs d).held b = true) : bdata b d = .ok ((obs d).view b,d) := by
  obtain ⟨buf,cached,locked⟩ := held_cached held
  simp [bdata,obs,cached,locked]

theorem bset_run (held : (obs d).held b = true) (data : Block) :
    ∃ d', bset b data d = .ok ((),d') ∧ obs d' = (obs d).set b data := by
  obtain ⟨buf,cached,locked⟩ := held_cached held
  refine ⟨put d b {buf with data := data},by simp [bset,cached,locked],?_⟩
  rw [obs_entry d (put _ _ _) b _ rfl (fun _ _ => rfl)]
  refine Obs.ext (by rfl) (by rfl) ?_ ?_
  · exact update_same _ _ _ (by simp [obs,cached])
  · exact update_same _ _ _ (by simp [obs,cached])

theorem bwrite_run (held : (obs d).held b = true) :
    ∃ d', bwrite b d = .ok ((),d') ∧ obs d' = (obs d).flush b := by
  obtain ⟨buf,cached,locked⟩ := held_cached held
  have data : (obs d).view b = buf.data := by simp [obs,cached]
  refine ⟨{put d b {buf with dirty := false} with disk := update d.disk b buf.data},
    by simp [bwrite,cached,locked],?_⟩
  rw [obs_entry d _ b _ rfl (fun x other => update_of_ne other _ _)]
  refine Obs.ext ?_ ?_ ?_ (by rfl)
  · simp only [Obs.flush,data]; rfl
  · exact update_same _ _ _ data
  · exact update_same _ _ _ (by simp [obs,cached])

theorem brelse_run (held : (obs d).held b = true) :
    ∃ d', brelse b d = .ok ((),d') ∧ obs d' = (obs d).unlock b := by
  obtain ⟨buf,cached,locked⟩ := held_cached held
  refine ⟨put d b {buf with locked := false},by simp [brelse,cached,locked],?_⟩
  rw [obs_entry d (put _ _ _) b _ rfl (fun _ _ => rfl)]
  refine Obs.ext (by rfl) ?_ (by rfl) ?_
  · exact update_same _ _ _ (by simp [obs,cached])
  · exact update_same _ _ _ (by simp [obs,cached])

theorem brelse_unheld (unheld : (obs d).held b = false) : brelse b d = .error (.panic "brelse") := by
  cases cached : d.cache b with
  | none => simp only [brelse,cached]
  | some buf =>
    simp only [obs,cached] at unheld
    simp [brelse,cached,unheld]

theorem bpin_run (held : (obs d).held b = true) :
    ∃ d', bpin b d = .ok ((),d') ∧ obs d' = (obs d).pin b := by
  obtain ⟨buf,cached,locked⟩ := held_cached held
  refine ⟨put d b {buf with dirty := true},by simp [bpin,cached,locked],?_⟩
  rw [obs_entry d (put _ _ _) b _ rfl (fun _ _ => rfl)]
  refine Obs.ext (by rfl) ?_ ?_ (by rfl)
  · exact update_same _ _ _ (by simp [obs,cached])
  · exact update_same _ _ _ (by simp [obs,cached])

end Runs

section Slots

variable {recycle : Dev → Blockno → Bool} {d d' : Dev} {b : Blockno} {l : List Blockno}

/-- Every busy buffer is listed, once. -/
structure Listed (d : Dev) : Prop where
  nodup : d.slots.Nodup
  listed : ∀ b, busy d b = true → b ∈ d.slots

def busyCount (d : Dev) : Nat := d.slots.countP (busy d)

theorem busy_eq (d : Dev) (b : Blockno) : busy d b = ((obs d).held b || (obs d).dirty b) := by
  simp only [busy,obs]
  cases d.cache b <;> rfl

theorem Listed.le_busyCount (listed : Listed d) (nodup : l.Nodup) (all : ∀ b ∈ l, busy d b = true) : l.length ≤ busyCount d := by
  rw [busyCount,List.countP_eq_length_filter]
  refine (List.subperm_of_subset nodup fun b member => ?_).length_le
  exact List.mem_filter.mpr ⟨listed.listed b (all b member),all b member⟩

theorem Listed.busyCount_le (listed : Listed d) (all : ∀ b, busy d b = true → b ∈ l) : busyCount d ≤ l.length := by
  rw [busyCount,List.countP_eq_length_filter]
  exact (List.subperm_of_subset (listed.nodup.filter _) fun b member => all b (List.mem_filter.mp member).2).length_le

theorem Listed.mono (listed : Listed d) (same : d'.slots = d.slots) (less : ∀ b, busy d' b = true → busy d b = true) : Listed d' := by
  refine ⟨by rw [same]; exact listed.nodup,fun b here => ?_⟩
  rw [same]
  exact listed.listed b (less b here)

theorem busy_put (d : Dev) (b x : Blockno) (buf : Buf) : busy (put d b buf) x = if x = b then buf.locked || buf.dirty else busy d x := by
  simp only [busy,put,update_apply]
  split_ifs <;> rfl

theorem busy_disk (d : Dev) (disk : Blockno → Block) (x : Blockno) : busy {d with disk := disk} x = busy d x := rfl

theorem bset_listed {data : Block} (listed : Listed d) (ran : bset b data d = .ok ((),d')) : Listed d' :=
  listed.mono (by grind [bset,put]) (by grind [bset,busy_put,busy_disk,busy])

theorem bwrite_listed (listed : Listed d) (ran : bwrite b d = .ok ((),d')) : Listed d' :=
  listed.mono (by grind [bwrite,put]) (by grind [bwrite,busy_put,busy_disk,busy])

theorem brelse_listed (listed : Listed d) (ran : brelse b d = .ok ((),d')) : Listed d' :=
  listed.mono (by grind [brelse,put]) (by grind [brelse,busy_put,busy_disk,busy])

theorem bpin_listed (listed : Listed d) (ran : bpin b d = .ok ((),d')) : Listed d' :=
  listed.mono (by grind [bpin,put]) (by grind [bpin,busy_put,busy_disk,busy])

theorem bread_slots (ran : bread recycle b d = .ok ((),d')) : d'.slots = d.slots := by
  grind [bread,put,evict]

theorem bget_meets (listed : Listed d) {fail : Fault → Prop}
    (room : busy d b = false → nbuf ≤ busyCount d → fail (.panic "bget: no buffers")) :
    Meets (bget b) d
      (fun _ d' => obs d' = obs d ∧ Listed d' ∧ b ∈ d'.slots ∧ (busy d b = false → busyCount d < nbuf)) fail := by
  by_cases full : ¬busy d b ∧ nbuf ≤ d.slots.length ∧ nbuf ≤ d.slots.countP (busy d)
  · refine .of_error (by rw [bget,if_pos full]) (room ?_ full.2.2)
    exact Bool.eq_false_iff.mpr full.1
  · have ran : bget b d = .ok ((),{d with slots := if b ∈ d.slots then d.slots else b :: d.slots}) := by rw [bget,if_neg full]
    refine .of_ok ran ⟨rfl,⟨?_,fun x here => ?_⟩,?_,fun idle => ?_⟩
    · dsimp only
      split_ifs with member
      · exact listed.nodup
      · exact List.nodup_cons.mpr ⟨member,listed.nodup⟩
    · have member := listed.listed x here
      dsimp only
      split_ifs
      · exact member
      · exact List.mem_cons_of_mem _ member
    · dsimp only
      split_ifs with member
      · exact member
      · exact List.mem_cons_self
    · by_contra many
      have most : busyCount d ≤ d.slots.length := List.countP_le_length
      exact full ⟨by rw [idle]; exact Bool.false_ne_true,by omega,Nat.le_of_not_lt many⟩

end Slots

end Xv6Ext2.Bio
