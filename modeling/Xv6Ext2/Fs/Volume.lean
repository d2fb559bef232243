import Xv6Ext2.LogInvariant

/-! The device of the inbuilt file system as fs.c uses it: buffers are read, changed, handed to
`log_write` and released. -/
namespace Xv6Ext2.Fs
open Lib Bio Log Function

def fssize : Nat := 1000

/-- Bits of a bitmap block. -/
def bpb : Nat := bsize * 8

/-- Inodes of a block. -/
def ipb : Nat := bsize / 64

/-- The fields of `struct superblock` that fs.c and log.c use. -/
structure Superblock where
  size : UInt32
  ninodes : UInt32
  nlog : UInt32
  logstart : UInt32
  inodestart : UInt32
  bmapstart : UInt32
  deriving DecidableEq

/-- What the kernel reads and never changes, with the layout that mkfs writes into the superblock. The
driver refuses block numbers from `FSSIZE` on. -/
structure Volume where
  sb : Superblock
  recycle : Dev → Blockno → Bool
  devRead : Nat → Option ((Nat → UInt8) → UInt32 → UInt32 × (Nat → UInt8))
  devWrite : Nat → Option ((Nat → UInt8) → UInt32 → UInt32)
  logstart : sb.logstart = 2
  inodestart : sb.inodestart.toNat = 2 + sb.nlog.toNat
  bmapstart : sb.bmapstart.toNat = sb.inodestart.toNat + sb.ninodes.toNat / ipb + 1
  data_pos : sb.bmapstart.toNat < sb.size.toNat
  size_le : sb.size.toNat ≤ fssize

/-- A volume with the numbers of mkfs, and buffers enough for all of it. -/
def standard : Volume where
  sb := ⟨1000,200,30,2,32,39⟩
  recycle _ _ := false
  devRead _ := none
  devWrite _ := none
  logstart := rfl
  inodestart := rfl
  bmapstart := by decide
  data_pos := by decide
  size_le := by decide

/-- The buffers of the device and `struct log`. -/
structure Sys where
  dev : Dev
  log : Log

abbrev P := Exec Fault Sys

def onDev {α : Type} (x : K α) : P α := fun s =>
  match x s.dev with
  | .ok (a,d) => .ok (a,{s with dev := d})
  | .error e => .error e

def bread (fs : Volume) (b : Blockno) : P Unit := onDev (Log.bread fs.recycle b)

def bdata (b : Blockno) : P Block := onDev (Bio.bdata b)

def bset (b : Blockno) (data : Block) : P Unit := onDev (Bio.bset b data)

def brelse (b : Blockno) : P Unit := onDev (Bio.brelse b)

/-- `log_write` of a process that meets no other one: tests, absorption, and the pin. -/
def logWrite (b : Blockno) : P Unit := fun s =>
  if s.log.lh.length ≥ logsize ∨ s.log.lh.length + 1 ≥ s.log.size then .error (.panic "too big a transaction")
  else if s.log.outstanding < 1 then .error (.panic "log_write outside of trans")
  else onDev (bpin b) {s with log := {s.log with lh := if b ∈ s.log.lh then s.log.lh else s.log.lh ++ [b]}}

/-- `bzero` on `ROOTDEV`. -/
def bzero (fs : Volume) (bno : Blockno) : P Unit := do
  bread fs bno
  bset bno (Bytes.zero bsize)
  logWrite bno
  brelse bno

/-- `BBLOCK(b, sb)` -/
def bblock (fs : Volume) (b : Nat) : Blockno := UInt32.ofNat (b / bpb) + fs.sb.bmapstart

/-- The inner loop of `balloc`: the first clear bit among the first `n`. -/
def scan (data : Block) (n : Nat) : Option Nat := (List.range n).find? (fun bi => !bit data.byte bi)

/-- The outer loop of `balloc` from block `b` on, with `fuel` bounding its rounds. -/
def ballocFrom (fs : Volume) : Nat → Nat → P Blockno
  | 0, _ => fault .diverges
  | fuel + 1, b =>
    if b < fs.sb.size.toNat then do
      bread fs (bblock fs b)
      let data ← bdata (bblock fs b)
      match scan data (min bpb (fs.sb.size.toNat - b)) with
      | some bi =>
        bset (bblock fs b) (data.setBit bi)
        logWrite (bblock fs b)
        brelse (bblock fs b)
        bzero fs (UInt32.ofNat (b + bi))
        return UInt32.ofNat (b + bi)
      | none =>
        brelse (bblock fs b)
        ballocFrom fs fuel (b + bpb)
    else fault (.panic "balloc: out of blocks")

def balloc (fs : Volume) : P Blockno := ballocFrom fs (fs.sb.size.toNat / bpb + 2) 0

def bfree (fs : Volume) (b : Blockno) : P Unit := do
  bread fs (bblock fs b.toNat)
  let data ← bdata (bblock fs b.toNat)
  if bit data.byte (b.toNat % bpb) then
    bset (bblock fs b.toNat) (data.clearBit (b.toNat % bpb))
    logWrite (bblock fs b.toNat)
    brelse (bblock fs b.toNat)
  else
    fault (.panic "freeing free block")

/-- A transaction stays below the size of the log, and leaves a buffer for its commit. -/
def limit (fs : Volume) : Nat := min nbuf fs.sb.nlog.toNat

theorem limit_le (fs : Volume) : limit fs ≤ nbuf := Nat.min_le_left _ _

/-- What fs.c sees of the device in the middle of an operation: block `b` reads as `v b`, the buffers in
`locks` are held, those in `edits` are changed and not logged yet, and the blocks logged so far, which are pinned, are
among those of `budget`, which lie behind the log. No other operation is going on. -/
structure Track (fs : Volume) (s : Sys) (v : Blockno → Block) (locks edits budget : Finset Blockno) : Prop where
  view : (obs s.dev).view = v
  held : ∀ b, (obs s.dev).held b = decide (b ∈ locks)
  edited : edits ⊆ locks
  settled : ∀ b, b ∉ edits → (obs s.dev).dirty b = false → v b = (obs s.dev).disk b
  listed : Listed s.dev
  pinned : ∀ b, (obs s.dev).dirty b = true ↔ b ∈ s.log.lh
  nodup : s.log.lh.Nodup
  logged : ∀ b ∈ s.log.lh, b ∈ budget
  home : ∀ b ∈ budget, fs.sb.inodestart.toNat ≤ b.toNat
  few : budget.card < nbuf
  short : s.log.lh.length < s.log.size
  running : s.log.outstanding = 1
  idle : s.log.committing = false
  place : s.log.start = fs.sb.logstart ∧ s.log.size = fs.sb.nlog.toNat

section Steps

variable {fs : Volume} {s : Sys} {v : Blockno → Block} {locks edits budget : Finset Blockno}
  {b : Blockno} {α : Type} {post : α → Sys → Prop} {fail : Fault → Prop}

theorem onDev_ok {x : K α} {a : α} {d : Dev} (ran : x s.dev = .ok (a,d)) : onDev x s = .ok (a,{s with dev := d}) := by
  rw [onDev,ran]

namespace Track

theorem length_le (track : Track fs s v locks edits budget) : s.log.lh.length ≤ budget.card := by
  rw [← List.toFinset_card_of_nodup track.nodup]
  exact Finset.card_le_card (fun b member => track.logged b (List.mem_toFinset.mp member))

theorem calm (track : Track fs s v locks edits budget) : Settled (obs s.dev) := by
  intro b free clean
  rw [track.view]
  refine track.settled b (fun edited => ?_) clean
  rw [track.held,decide_eq_false_iff_not] at free
  exact free (track.edited edited)

/-- Only what is held or logged keeps its buffer. -/
theorem busyCount_le (track : Track fs s v locks edits budget) : busyCount s.dev ≤ budget.card + locks.card := by
  have busy : busyCount s.dev ≤ (s.log.lh ++ locks.toList).length := track.listed.busyCount_le fun b busy => by
    rw [busy_eq,track.held,Bool.or_eq_true,decide_eq_true_eq,track.pinned] at busy
    rw [List.mem_append,Finset.mem_toList]
    exact busy.symm
  have length := track.length_le
  rw [List.length_append,Finset.length_toList] at busy
  omega

end Track

theorem bread_step {f : Unit → P α} (track : Track fs s v locks edits budget) (free : b ∉ locks) (spare : budget.card + locks.card < nbuf)
    (rest : ∀ s', Track fs s' v (insert b locks) edits budget → Meets (f ()) s' post fail) :
    Meets (bread fs b >>= f) s post fail := by
  have unlocked : (obs s.dev).held b = false := by rw [track.held,decide_eq_false_iff_not]; exact free
  have busy := track.busyCount_le
  have reads : Meets (Log.bread fs.recycle b) s.dev _ (fun _ => False) :=
    bread_meets fs.recycle track.calm track.listed unlocked fun _ full => by omega
  obtain ⟨_,d,ran,seen,listed,-⟩ := reads.returns fun _ never => never
  refine .step (onDev_ok ran) (rest _ ?_)
  refine {track with view := ?_, held := ?_, edited := ?_, settled := ?_, listed := listed, pinned := ?_}
  · rw [seen]
    exact track.view
  · intro x
    rw [seen]
    by_cases same : x = b
    · simp [Obs.lock,same]
    · simp [Obs.lock,track.held,same]
  · exact track.edited.trans (Finset.subset_insert _ _)
  · rw [seen]
    exact track.settled
  · rw [seen]
    exact track.pinned

theorem bdata_step {f : Block → P α} (track : Track fs s v locks edits budget) (mine : b ∈ locks)
    (rest : Meets (f (v b)) s post fail) : Meets (bdata b >>= f) s post fail := by
  have locked : (obs s.dev).held b = true := by rw [track.held,decide_eq_true_eq]; exact mine
  have ran := onDev_ok (bdata_run locked)
  rw [track.view] at ran
  exact .step ran rest

theorem bset_step {f : Unit → P α} (track : Track fs s v locks edits budget) (mine : b ∈ locks) {data : Block}
    (rest : ∀ s', Track fs s' (update v b data) locks (insert b edits) budget → Meets (f ()) s' post fail) :
    Meets (bset b data >>= f) s post fail := by
  have locked : (obs s.dev).held b = true := by rw [track.held,decide_eq_true_eq]; exact mine
  obtain ⟨d,ran,seen⟩ := bset_run locked data
  refine .step (onDev_ok ran) (rest _ ?_)
  refine {track with
    view := ?_, held := ?_, edited := ?_, settled := ?_, listed := bset_listed track.listed ran, pinned := ?_}
  · rw [seen,← track.view]
    rfl
  · rw [seen]
    exact track.held
  · exact Finset.insert_subset mine track.edited
  · intro x clean dirty
    rw [seen] at dirty ⊢
    obtain ⟨other,clean⟩ := not_or.mp (fun either => clean (Finset.mem_insert.mpr either))
    rw [update_of_ne other]
    exact track.settled x clean dirty
  · rw [seen]
    exact track.pinned

theorem brelse_last (track : Track fs s v (insert b locks) edits budget) (once : b ∉ locks) (clean : b ∉ edits) :
    Meets (brelse b) s (fun _ s' => Track fs s' v locks edits budget) fail := by
  have locked : (obs s.dev).held b = true := by rw [track.held,decide_eq_true_eq]; exact Finset.mem_insert_self _ _
  obtain ⟨d,ran,seen⟩ := brelse_run locked
  refine .of_ok (onDev_ok ran) ?_
  refine {track with
    view := ?_, held := ?_, edited := ?_, settled := ?_, listed := brelse_listed track.listed ran, pinned := ?_}
  · rw [seen]
    exact track.view
  · intro x
    rw [seen]
    by_cases same : x = b
    · simp [Obs.unlock,same,once]
    · simp [Obs.unlock,track.held,same]
  · intro x member
    rcases Finset.mem_insert.mp (track.edited member) with rfl | inside
    · exact absurd member clean
    · exact inside
  · rw [seen]
    exact track.settled
  · rw [seen]
    exact track.pinned

theorem brelse_step {f : Unit → P α} (track : Track fs s v (insert b locks) edits budget) (once : b ∉ locks)
    (clean : b ∉ edits) (rest : ∀ s', Track fs s' v locks edits budget → Meets (f ()) s' post fail) :
    Meets (brelse b >>= f) s post fail :=
  (brelse_last track once clean).bind (fun _ s' => rest s')

theorem logWrite_step {f : Unit → P α} (track : Track fs s v locks (insert b edits) budget) (room : budget.card + 2 ≤ limit fs)
    (home : fs.sb.inodestart.toNat ≤ b.toNat)
    (rest : ∀ s', Track fs s' v locks edits (insert b budget) → Meets (f ()) s' post fail) :
    Meets (logWrite b >>= f) s post fail := by
  have mine : b ∈ locks := track.edited (Finset.mem_insert_self _ _)
  have locked : (obs s.dev).held b = true := by rw [track.held,decide_eq_true_eq]; exact mine
  obtain ⟨d,ran,seen⟩ := bpin_run locked
  have length := track.length_le
  have grown := Finset.card_insert_le b budget
  have most := limit_le fs
  have size := track.place.2
  have same : nbuf = logsize := rfl
  have small : s.log.lh.length + 2 ≤ min logsize s.log.size := by
    rw [limit,same] at room
    omega
  have done : logWrite b s = .ok ((),⟨d,{s.log with lh := if b ∈ s.log.lh then s.log.lh else s.log.lh ++ [b]}⟩) := by
    rw [logWrite,if_neg (by omega),if_neg (by rw [track.running]; exact Nat.lt_irrefl 1)]
    exact onDev_ok ran
  refine .step done (rest _ ?_)
  refine {track with
    view := ?_, held := ?_, edited := ?_, settled := ?_, listed := bpin_listed track.listed ran, pinned := ?_,
    nodup := nodup_logged track.nodup, logged := ?_, home := ?_, few := by omega, short := ?_}
  · rw [seen]
    exact track.view
  · rw [seen]
    exact track.held
  · exact (Finset.subset_insert _ _).trans track.edited
  · intro x clean dirty
    rw [seen] at dirty ⊢
    by_cases same : x = b
    · simp [Obs.pin,same] at dirty
    · simp only [Obs.pin,update_of_ne same] at dirty
      exact track.settled x (by simp [same,clean]) dirty
  · intro x
    rw [seen,mem_logged,← track.pinned]
    by_cases same : x = b
    · simp [Obs.pin,same]
    · simp [Obs.pin,same]
  · intro x there
    rcases mem_logged.mp there with rfl | old
    · exact Finset.mem_insert_self _ _
    · exact Finset.mem_insert_of_mem (track.logged x old)
  · intro x member
    rcases Finset.mem_insert.mp member with rfl | old
    · exact home
    · exact track.home x old
  · dsimp only
    split_ifs
    · exact track.short
    · rw [List.length_append,List.length_singleton]
      omega

/-- A block that the budget has. -/
theorem logWrite_listed {f : Unit → P α} (track : Track fs s v locks (insert b edits) budget) (room : budget.card + 2 ≤ limit fs)
    (member : b ∈ budget) (rest : ∀ s', Track fs s' v locks edits budget → Meets (f ()) s' post fail) :
    Meets (logWrite b >>= f) s post fail := by
  have same : insert b budget = budget := Finset.insert_eq_of_mem member
  refine logWrite_step track room (track.home b member) ?_
  rw [same]
  exact rest

end Steps

end Xv6Ext2.Fs
