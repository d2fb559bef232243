import Xv6Ext2.Fs.Bitmap

/-! `begin_op` and `end_op` of a process that runs alone. A commit writes what was logged to its home and
leaves the log empty; outside the log area every block reads as before. -/
namespace Xv6Ext2.Fs
open Lib Bio Log Function

def commit (fs : Volume) (start : Blockno) (lh : List Blockno) : K Unit := do
  (List.range lh.length).forM (writeLog fs.recycle start lh)
  writeHead fs.recycle start lh
  (List.range lh.length).forM (installTrans fs.recycle start lh)
  writeHead fs.recycle start []

def endOp (fs : Volume) : P Unit := fun s =>
  if s.log.committing then .error (.panic "log.committing")
  else if s.log.outstanding - 1 = 0 ∧ s.log.lh ≠ [] then
    match commit fs s.log.start s.log.lh s.dev with
    | .ok (_,d) => .ok ((),⟨d,{s.log with outstanding := s.log.outstanding - 1, lh := []}⟩)
    | .error e => .error e
  else .ok ((),{s with log := {s.log with outstanding := s.log.outstanding - 1}})

/-- A process that runs alone and has to sleep here is not woken. -/
def beginOp : P Unit := fun s =>
  if s.log.committing ∨ s.log.lh.length + (s.log.outstanding + 1) * maxopblocks > logsize then .error .deadlock
  else .ok ((),{s with log := {s.log with outstanding := s.log.outstanding + 1}})

section

variable {fs : Volume} {start : Blockno} {size : Nat} {lh : List Blockno} {v : Blockno → Block} {d : Dev}

/-- In the middle of a commit: blocks outside the log area read as `v`, and those of `rest` are dirty. -/
structure Committing (start : Blockno) (size : Nat) (rest : List Blockno) (v : Blockno → Block) (o : Obs) : Prop where
  free : ∀ b, o.held b = false
  settled : Settled o
  home : ∀ b, Home start size b → o.view b = v b
  dirty : ∀ b, o.dirty b = true ↔ b ∈ rest

theorem Committing.write_area {o : Obs} {b : Blockno} {rest : List Blockno} (stage : Committing start size rest v o)
    (area : Area start size b) (homes : ∀ b ∈ rest, Home start size b) (data : Block) :
    Committing start size rest v (o.write b data) := by
  refine ⟨stage.free,stage.settled.write b data,fun x home => ?_,fun x => ?_⟩
  · exact (update_of_ne (home_ne home area) _ _).trans (stage.home x home)
  · by_cases same : x = b
    · simpa [Obs.write,same] using fun member => homes b member area
    · simpa [Obs.write,update_of_ne same] using stage.dirty x

theorem Committing.write_home {o : Obs} {b : Blockno} {rest : List Blockno} (stage : Committing start size (b :: rest) v o)
    (once : b ∉ rest) : Committing start size rest v (o.write b (v b)) := by
  refine ⟨stage.free,stage.settled.write b (v b),fun x home => ?_,fun x => ?_⟩
  · by_cases same : x = b
    · simp [Obs.write,same]
    · exact (update_of_ne same _ _).trans (stage.home x home)
  · by_cases same : x = b
    · simpa [Obs.write,same] using once
    · simpa [Obs.write,update_of_ne same,same] using stage.dirty x

/-- Only the blocks of `rest` keep their buffers. -/
theorem Committing.busyCount_le {rest : List Blockno} (stage : Committing start size rest v (obs d)) (listed : Listed d) :
    busyCount d ≤ rest.length := listed.busyCount_le fun b busy => by
  rw [busy_eq,stage.free,Bool.false_or,stage.dirty] at busy
  exact busy

def Copied (start : Blockno) (lh : List Blockno) (v : Blockno → Block) (o : Obs) (k : Nat) : Prop :=
  ∀ j < k, ∀ b, lh[j]? = some b → o.view (logBlock start j) = v b

/-- The log area has room for the header and a block for each of `lh`, which are outside it. -/
structure Fitting (start : Blockno) (size : Nat) (lh : List Blockno) : Prop where
  nodup : lh.Nodup
  buffers : lh.length < nbuf
  length : lh.length < size
  small : size < 2^31
  home : ∀ b ∈ lh, Home start size b

theorem Fitting.area (fit : Fitting start size lh) {k : Nat} (inside : k < lh.length) : Area start size (logBlock start k) :=
  logBlock_area k (by have := fit.length; omega)

variable (fs) in
private theorem writeLog_step (fit : Fitting start size lh) {k : Nat} (inside : k < lh.length)
    (stage : Committing start size lh v (obs d)) (listed : Listed d) (copied : Copied start lh v (obs d) k) :
    Meets (writeLog fs.recycle start lh k) d
      (fun _ d' => Committing start size lh v (obs d') ∧ Listed d' ∧ Copied start lh v (obs d') (k + 1)) (fun _ => False) := by
  have entry : lh[k]? = some lh[k] := List.getElem?_eq_getElem inside
  have home := fit.home _ (List.getElem_mem inside)
  rw [writeLog,entry]
  refine (copyBlock_meets fs.recycle _ _ _ _ stage.settled listed stage.free (home_ne home (fit.area inside)).symm (.inl ⟨rfl,rfl⟩)
    (.inr ⟨Nat.lt_of_le_of_lt (stage.busyCount_le listed) fit.buffers,(stage.dirty _).mpr (List.getElem_mem inside)⟩)).mono ?_
    (fun _ => id)
  rintro _ d' ⟨wrote,listed',-⟩
  rw [wrote]
  refine ⟨stage.write_area (fit.area inside) fit.home _,listed',fun j bound b member => ?_⟩
  rcases Nat.lt_succ_iff_lt_or_eq.mp bound with earlier | rfl
  · have other : logBlock start j ≠ logBlock start k := fun same => by
      have room := fit.length
      have small := fit.small
      have := logBlock_inj j k (by omega) (by omega) same
      omega
    exact (update_of_ne other _ _).trans (copied j earlier b member)
  · rw [entry] at member
    cases member
    exact (update_self _ _ _).trans (stage.home _ home)

variable (fs) in
private theorem installTrans_step (fit : Fitting start size lh) {k : Nat} (inside : k < lh.length)
    (stage : Committing start size (lh.drop k) v (obs d)) (listed : Listed d) (copied : Copied start lh v (obs d) lh.length) :
    Meets (installTrans fs.recycle start lh k) d
      (fun _ d' => Committing start size (lh.drop (k + 1)) v (obs d') ∧ Listed d' ∧ Copied start lh v (obs d') lh.length)
      (fun _ => False) := by
  have entry : lh[k]? = some lh[k] := List.getElem?_eq_getElem inside
  have home := fit.home _ (List.getElem_mem inside)
  have buffers := fit.buffers
  have few := stage.busyCount_le listed
  have once := fit.nodup.sublist (List.drop_sublist k lh)
  rw [List.length_drop] at few
  rw [List.drop_eq_getElem_cons inside] at stage once
  rw [installTrans,entry]
  refine (copyBlock_meets fs.recycle _ _ _ _ stage.settled listed stage.free (home_ne home (fit.area inside)).symm (.inr ⟨rfl,rfl⟩)
    (.inr ⟨by omega,(stage.dirty _).mpr List.mem_cons_self⟩)).mono ?_ (fun _ => id)
  rintro _ d' ⟨wrote,listed',-⟩
  rw [wrote,copied k inside _ entry]
  refine ⟨stage.write_home (List.nodup_cons.mp once).1,listed',fun j bound b member => ?_⟩
  exact (update_of_ne (home_ne home (fit.area bound)).symm _ _).trans (copied j bound b member)

variable (fs) in
theorem commit_run (fit : Fitting start size lh) (stage : Committing start size lh v (obs d)) (listed : Listed d) :
    Meets (commit fs start lh) d (fun _ d' => Committing start size [] v (obs d') ∧ Listed d') (fun _ => False) := by
  have area : Area start size start := start_area (Nat.zero_lt_of_lt fit.length)
  have heads {rest : List Blockno} {d : Dev} (stage : Committing start size rest v (obs d)) (listed : Listed d)
      (few : rest.length < nbuf) (lh : List Blockno) : Meets (writeHead fs.recycle start lh) d _ (fun _ => False) :=
    writeHead_meets fs.recycle start lh stage.settled listed stage.free (.inr (Nat.lt_of_le_of_lt (stage.busyCount_le listed) few))
  rw [commit]
  refine (Meets.forM_range (fun k d => Committing start size lh v (obs d) ∧ Listed d ∧ Copied start lh v (obs d) k) lh.length
    (fun k inside _ here => writeLog_step fs fit inside here.1 here.2.1 here.2.2)
    ⟨stage,listed,fun j none => absurd none (Nat.not_lt_zero j)⟩).bind ?_
  rintro _ d₁ ⟨stage₁,listed₁,copied₁⟩
  refine (heads stage₁ listed₁ fit.buffers lh).bind ?_
  rintro _ d₂ ⟨wrote₂,listed₂,-⟩
  have stage₂ : Committing start size (lh.drop 0) v (obs d₂) := by
    rw [wrote₂]
    exact stage₁.write_area area fit.home _
  have copied₂ : Copied start lh v (obs d₂) lh.length := by
    intro j bound b member
    have room := fit.length
    have small := fit.small
    rw [wrote₂]
    exact (update_of_ne (logBlock_ne_start j (by omega)) _ _).trans (copied₁ j bound b member)
  refine (Meets.forM_range (fun k d => Committing start size (lh.drop k) v (obs d) ∧ Listed d ∧ Copied start lh v (obs d) lh.length)
    lh.length (fun k inside _ here => installTrans_step fs fit inside here.1 here.2.1 here.2.2)
    ⟨stage₂,listed₂,copied₂⟩).bind ?_
  rintro _ d₃ ⟨stage₃,listed₃,-⟩
  rw [List.drop_length] at stage₃
  refine (heads stage₃ listed₃ (by decide) []).mono ?_ (fun _ => id)
  rintro _ d₄ ⟨wrote₄,listed₄,-⟩
  rw [wrote₄]
  exact ⟨stage₃.write_area area (by simp) _,listed₄⟩

structure Idle (fs : Volume) (s : Sys) : Prop where
  free : ∀ b, (obs s.dev).held b = false
  clean : ∀ b, (obs s.dev).dirty b = false
  settled : Settled (obs s.dev)
  listed : Listed s.dev
  empty : s.log.lh = []
  none : s.log.outstanding = 0
  idle : s.log.committing = false
  place : s.log.start = fs.sb.logstart ∧ s.log.size = fs.sb.nlog.toNat

def Same (fs : Volume) (v v' : Blockno → Block) : Prop := ∀ b : Blockno, fs.sb.inodestart.toNat ≤ b.toNat → v' b = v b

variable {s : Sys} {budget : Finset Blockno}

theorem home_of_inodestart_le {b : Blockno} (behind : fs.sb.inodestart.toNat ≤ b.toNat) :
    Home fs.sb.logstart fs.sb.nlog.toNat b := by
  rintro ⟨k,bound,rfl⟩
  have start := fs.inodestart
  have small := fs.sb.inodestart.toNat_lt
  have two : (2 : UInt32).toNat = 2 := rfl
  rw [fs.logstart,UInt32.toNat_add,UInt32.toNat_ofNat',two] at behind
  omega

theorem beginOp_run (idle : Idle fs s) (positive : 0 < fs.sb.nlog.toNat) :
    ∃ s', beginOp s = .ok ((),s') ∧ Track fs s' (obs s.dev).view ∅ ∅ ∅ := by
  refine ⟨{s with log := {s.log with outstanding := s.log.outstanding + 1}},?_,?_⟩
  · have calm : ¬(s.log.committing = true ∨ s.log.lh.length + (s.log.outstanding + 1) * maxopblocks > logsize) := by
      rw [idle.idle,idle.empty,idle.none]
      decide
    rw [beginOp,if_neg calm]
  · exact {
      view := rfl
      held := fun b => by simpa using idle.free b
      edited := Finset.empty_subset _
      settled := fun b _ clean => idle.settled b (idle.free b) clean
      listed := idle.listed
      pinned := fun b => by rw [idle.clean b,idle.empty]; simp
      nodup := by rw [idle.empty]; exact List.nodup_nil
      logged := fun b member => by rw [idle.empty] at member; cases member
      home := fun b member => absurd member (Finset.notMem_empty b)
      few := by decide
      short := by rw [idle.place.2,idle.empty]; exact positive
      running := by rw [idle.none]
      idle := idle.idle
      place := idle.place }

theorem endOp_run (track : Track fs s v ∅ ∅ budget) :
    ∃ s', endOp fs s = .ok ((),s') ∧ Idle fs s' ∧ Same fs v (obs s'.dev).view := by
  have alone : s.log.outstanding - 1 = 0 := by rw [track.running]
  have open' : ¬s.log.committing = true := by rw [track.idle]; exact Bool.false_ne_true
  have free (b : Blockno) : (obs s.dev).held b = false := by simpa using track.held b
  have settled : Settled (obs s.dev) := fun b _ clean => by
    rw [track.view]
    exact track.settled b (Finset.notMem_empty b) clean
  by_cases empty : s.log.lh = []
  · refine ⟨{s with log := {s.log with outstanding := s.log.outstanding - 1}},?_,?_,?_⟩
    · rw [endOp,if_neg open',if_neg (fun both => both.2 empty)]
    · refine ⟨free,fun b => Bool.eq_false_iff.mpr fun dirty => ?_,settled,track.listed,empty,alone,track.idle,track.place⟩
      rw [track.pinned b,empty] at dirty
      cases dirty
    · intro b _
      exact congrFun track.view b
  · have fit : Fitting s.log.start fs.sb.nlog.toNat s.log.lh := by
      have short := track.short
      have size := fs.inodestart
      have small := fs.inodestart_lt
      have less := fs.data_pos
      have le := fs.size_le
      simp only [fssize] at le
      rw [track.place.2] at short
      refine ⟨track.nodup,Nat.lt_of_le_of_lt track.length_le track.few,by omega,by omega,
        fun b member => ?_⟩
      rw [track.place.1]
      exact home_of_inodestart_le (track.home b (track.logged b member))
    have stage : Committing s.log.start fs.sb.nlog.toNat s.log.lh v (obs s.dev) :=
      ⟨free,settled,fun b _ => congrFun track.view b,track.pinned⟩
    obtain ⟨_,d,ran,done,listed⟩ := (commit_run fs fit stage track.listed).returns fun _ => id
    refine ⟨⟨d,{s.log with outstanding := s.log.outstanding - 1, lh := []}⟩,?_,?_,?_⟩
    · rw [endOp,if_neg open',if_pos ⟨alone,empty⟩,ran]
    · refine ⟨done.free,fun b => Bool.eq_false_iff.mpr fun dirty => ?_,done.settled,listed,rfl,alone,track.idle,track.place⟩
      exact absurd ((done.dirty b).mp dirty) List.not_mem_nil
    · intro b behind
      refine done.home b ?_
      rw [track.place.1]
      exact home_of_inodestart_le behind

end

end Xv6Ext2.Fs
