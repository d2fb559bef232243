import Xv6Ext2.LogSteps

/-! Crash atomicity of the redo log over whole runs, and the run that breaks it: `log_write` makes
its tests before it takes the lock, so two of them can pass the same test. A log of `NBUF` blocks or
more is safe from that, as a transaction that fills it leaves no buffer for `write_log`. -/
namespace Xv6Ext2.Log
open Lib Bio

def LogsHome (start : Blockno) (size : Nat) : Event → Prop
  | .check _ b _ => Home start size b
  | _ => True

instance (start : Blockno) (size : Nat) (e : Event) : Decidable (LogsHome start size e) := by
  cases e <;> simp only [LogsHome,Home] <;> infer_instance

def roomyStep (m : Machine) : Event → Bool
  | .append op => roomy m op
  | _ => true

/-- Every critical section of `log_write` in a run finds the room its caller had tested. -/
def roomyRun (recycle : Dev → Blockno → Bool) : List Event → Machine × History → Bool
  | [], _ => true
  | e :: events, s => roomyStep s.1 e && (traced recycle s e).all (roomyRun recycle events)

def initial (disk : Blockno → Block) (start : Blockno) (size : Nat) : Machine × History :=
  (powerOn disk start size,⟨replay start disk,[]⟩)

/-- Whenever the run has come to the last write of a recovery, that write leaves the home blocks as
they were before the interrupted transaction, or as they are with all of its writes. -/
def Atomic (recycle : Dev → Blockno → Bool) (disk : Blockno → Block) (start : Blockno) (size : Nat)
    (events : List Event) : Prop :=
  ∀ m h m', run recycle events (initial disk start size) = some (m,h) → m.phase = .reclear →
    recover recycle m = some m' →
      Agree start size m'.dev.disk h.before ∨ Agree start size m'.dev.disk h.after

section Runs

variable {recycle : Dev → Blockno → Bool}

private theorem step_geometry {m m' : Machine} {e : Event} (moved : step recycle m e = some m') :
    m'.log.start = m.log.start ∧ m'.log.size = m.log.size := by
  have on {α : Type} {program : K α} {done : α × Machine} (ran : runOn m program = some done) :
      done.2.log = m.log := by
    unfold runOn at ran
    split at ran
    · obtain rfl := Option.some.inj ran
      rfl
    · contradiction
  cases e with
  | beginOp =>
    simp only [step,beginOp] at moved
    split_ifs at moved
    obtain rfl := Option.some.inj moved
    exact ⟨rfl,rfl⟩
  | check op b data =>
    simp only [step,logWriteCheck] at moved
    split at moved
    · split_ifs at moved
      obtain rfl := Option.some.inj moved
      exact ⟨rfl,rfl⟩
    · contradiction
  | append op =>
    simp only [step,logWriteAppend] at moved
    split at moved
    · split_ifs at moved <;>
      · obtain ⟨done,_,rfl⟩ := Option.map_eq_some_iff.mp moved
        exact ⟨rfl,rfl⟩
    · contradiction
  | endOp op =>
    simp only [step,endOp] at moved
    split at moved
    · split_ifs at moved <;> (obtain rfl := Option.some.inj moved; exact ⟨rfl,rfl⟩)
    · contradiction
  | commit =>
    simp only [step,commit] at moved
    split at moved
    · obtain ⟨done,ran,rfl⟩ := Option.map_eq_some_iff.mp moved
      simp [on ran]
    · obtain ⟨done,ran,rfl⟩ := Option.map_eq_some_iff.mp moved
      simp [on ran]
    · obtain ⟨done,ran,rfl⟩ := Option.map_eq_some_iff.mp moved
      simp [on ran]
    · obtain ⟨done,_,rfl⟩ := Option.map_eq_some_iff.mp moved
      exact ⟨rfl,rfl⟩
    · contradiction
  | crash =>
    obtain rfl := Option.some.inj moved
    exact ⟨rfl,rfl⟩
  | recover =>
    simp only [step,recover] at moved
    split at moved
    · obtain ⟨done,_,rfl⟩ := Option.map_eq_some_iff.mp moved
      exact ⟨rfl,rfl⟩
    · obtain ⟨done,ran,rfl⟩ := Option.map_eq_some_iff.mp moved
      simp [on ran]
    · obtain ⟨done,_,rfl⟩ := Option.map_eq_some_iff.mp moved
      exact ⟨rfl,rfl⟩
    · contradiction

theorem step_inv {m m' : Machine} {h : History} {e : Event} (inv : Inv m h)
    (home : LogsHome m.log.start m.log.size e)
    (room : nbuf ≤ m.log.size ∨ roomyStep m e = true)
    (moved : step recycle m e = some m') : Inv m' (h.next m e m') := by
  cases e with
  | beginOp => exact beginOp_inv inv moved
  | check op b data => exact check_inv inv home moved
  | append op => exact append_inv inv room moved
  | endOp op => exact endOp_inv inv moved
  | commit => exact commit_inv inv moved
  | crash =>
    obtain rfl := Option.some.inj moved
    exact crash_inv inv
  | recover => exact recover_inv inv moved

theorem run_inv (start : Blockno) (size : Nat) (events : List Event) (s s' : Machine × History)
    (inv : Inv s.1 s.2) (geometry : s.1.log.start = start ∧ s.1.log.size = size)
    (home : ∀ e ∈ events, LogsHome start size e) (room : nbuf ≤ size ∨ roomyRun recycle events s = true)
    (ran : run recycle events s = some s') :
    Inv s'.1 s'.2 ∧ s'.1.log.start = start ∧ s'.1.log.size = size := by
  induction events generalizing s with
  | nil =>
    obtain rfl := Option.some.inj ran
    exact ⟨inv,geometry⟩
  | cons e events ih =>
    simp only [run,List.foldlM_cons] at ran
    obtain ⟨next,first,rest⟩ := Option.bind_eq_some_iff.mp ran
    rw [roomyRun,first,Option.all_some,Bool.and_eq_true,or_and_left,← geometry.2] at room
    obtain ⟨m',moved,rfl⟩ := Option.map_eq_some_iff.mp first
    have here := home e (by simp)
    rw [← geometry.1,← geometry.2] at here
    have kept := step_geometry moved
    refine ih _ (step_inv inv here room.1 moved) ?_ (fun e' member => home e' (by simp [member])) (geometry.2 ▸ room.2) rest
    exact ⟨kept.1.trans geometry.1,kept.2.trans geometry.2⟩

end Runs

theorem initial_inv (disk : Blockno → Block) (start : Blockno) (size : Nat) (positive : 0 < size)
    (bounded : size < 2^31) (written : Fits start size (header start disk)) :
    Inv (initial disk start size).1 (initial disk start size).2 := by
  refine ⟨⟨positive,bounded,rfl,fun _ => rfl,fun _ _ _ => rfl,⟨List.nodup_nil,fun _ busy => by cases busy⟩,?_⟩,rfl,fun _ => rfl,?_⟩
  · intro b dirty
    exact absurd dirty (by simp [obs,initial,powerOn,cold])
  · exact ⟨replay start disk,.inl rfl,written,fun _ _ => rfl⟩

def blank : Blockno → Block := fun _ => Bytes.zero bsize

def stamp (b : Blockno) : Block := fun _ => UInt8.ofNat b.toNat

/-- One committed write whose installation and first recovery are cut short. -/
def interrupted : List Event :=
  [.recover,.recover,.beginOp,.check 0 100 (stamp 100),.append 0,.endOp 0,.commit,.commit,.crash,
    .recover,.crash,.recover,.recover]

theorem blank_fits {size : Nat} (positive : 0 < size) : Fits 2 size (header 2 blank) := by
  have empty : header 2 blank = [] := by decide +kernel
  rw [empty]
  exact ⟨fun b member => absurd member List.not_mem_nil,Nat.zero_le _,positive⟩

/-- Two operations log two blocks, pass the tests of `log_write` together and append both. The log of 4 blocks then takes
its fourth copy to the block behind its area, and the crash comes before the header is written. -/
def racing : List Event :=
  [.recover,.recover,.beginOp,.beginOp,.check 0 100 (stamp 100),.append 0,.check 1 101 (stamp 101),.append 1,
    .check 0 102 (stamp 102),.check 1 103 (stamp 103),.append 0,.append 1,.endOp 0,.endOp 0,
    .commit,.commit,.commit,.commit,.crash,.recover]

end Xv6Ext2.Log
