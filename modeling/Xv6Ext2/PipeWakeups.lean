import Xv6Ext2.Pipes

/-! Sleeping and waking at a pipe: whether a process that sleeps has reason to. -/
namespace Xv6Ext2.Pipes
open Lib Function

section

variable {ι : Type}

def State.level (s : State ι) : Nat := (s.pipe.nwrite - s.pipe.nread).toNat

/-- Whoever sleeps has reason to. -/
def Heard (s : State ι) : Prop :=
  (∀ i, (s.proc i).chan = some .nread → s.pipe.nread = s.pipe.nwrite ∧ s.pipe.writeopen = true) ∧
  ∀ i, (s.proc i).chan = some .nwrite → s.pipe.nwrite = s.pipe.nread + pipesize ∧ s.pipe.readopen = true

/-- A process sleeps where it calls `sleep`, and the end at which it is in a call is open. -/
structure Proc.Fits (p : Proc) (readopen writeopen : Bool) : Prop where
  reader : p.chan = some .nread → p.pc.reading = true
  writer : p.chan = some .nwrite → p.pc.writing = true
  reading : p.pc.reading = true → readopen = true
  writing : p.pc.writing = true → writeopen = true

def Placed (proc : ι → Proc) (readopen writeopen : Bool) : Prop := ∀ i, (proc i).Fits readopen writeopen

/-- A killed process does not go on in `pipewrite` with more bytes than the pipe holds while a reader sleeps. -/
def Spared (s : State ι) (turn : ι × Move) : Prop :=
  ∀ k n rest, turn.2 = .go → (s.proc turn.1).pc = .write k n rest → (s.proc turn.1).killed = true →
    512 < rest.length → ∀ j, (s.proc j).chan ≠ some .nread

variable {s s' : State ι}

theorem empty_iff : s.pipe.nread = s.pipe.nwrite ↔ s.level = 0 := by
  rw [State.level,eq_comm,← sub_eq_zero,← UInt32.toNat_inj]
  rfl

theorem Heard.empty (heard : Heard s) {i : ι} (sleeps : (s.proc i).chan = some .nread) : s.level = 0 :=
  empty_iff.mp (heard.1 i sleeps).1

theorem Heard.full (heard : Heard s) {i : ι} (sleeps : (s.proc i).chan = some .nwrite) : s.level = 512 :=
  full_iff.mp (heard.2 i sleeps).1

theorem Initial.heard (initial : Initial s) : Heard s := by
  constructor <;> intro i sleeps <;> rw [initial.awake] at sleeps <;> cases sleeps

theorem Proc.fits_idle {p : Proc} (awake : p.chan = none) (readopen writeopen : Bool) {result : Int} :
    Proc.Fits {p with pc := .idle result} readopen writeopen := by
  constructor <;> simp [awake,Pc.reading,Pc.writing]

theorem Initial.placed (initial : Initial s) : Placed s.proc s.pipe.readopen s.pipe.writeopen := by
  intro i
  obtain ⟨result,idle⟩ := initial.idle i
  have fits : Proc.Fits {s.proc i with pc := .idle result} s.pipe.readopen s.pipe.writeopen :=
    Proc.fits_idle (initial.awake i) _ _
  rwa [← idle] at fits

theorem Placed.wakeup {proc : ι → Proc} {readopen writeopen : Bool} (placed : Placed proc readopen writeopen) (chan : Chan) :
    Placed (wakeup proc chan) readopen writeopen := by
  intro j
  simp only [Pipes.wakeup]
  split_ifs
  · exact ⟨by simp,by simp,(placed j).reading,(placed j).writing⟩
  · exact placed j

variable [DecidableEq ι]

theorem pipewrite_cases {i : ι} (k n : Nat) (rest : List UInt8) (bound : s.level ≤ 512) :
    ∃ (t : State ι) (stored : Nat), t.pipe.readopen = s.pipe.readopen ∧ t.pipe.writeopen = s.pipe.writeopen ∧
      t.level = s.level + stored ∧ t.level ≤ 512 ∧
      ((stored = rest.length ∧ pipewrite i k n rest s = {t with proc := goto (wakeup s.proc .nread) i (.idle n)}) ∨
       (stored < rest.length ∧ t.level = 512 ∧ (s.pipe.readopen = false ∨ (s.proc i).killed = true) ∧
        pipewrite i k n rest s = {t with proc := goto s.proc i (.idle (-1))}) ∨
       (stored < rest.length ∧ t.level = 512 ∧ s.pipe.readopen = true ∧ (s.proc i).killed = false ∧
        ∃ back, pipewrite i k n rest s =
          {t with proc := sleep (goto (wakeup s.proc .nread) i (.write k n back)) i .nwrite})) := by
  induction rest generalizing s with
  | nil => exact ⟨s,0,rfl,rfl,rfl,bound,.inl ⟨rfl,rfl⟩⟩
  | cons c rest ih =>
    rw [pipewrite]
    split_ifs with full gone
    · exact ⟨s,0,rfl,rfl,rfl,bound,.inr (.inl ⟨by simp,full_iff.mp full,gone,rfl⟩)⟩
    · simp only [not_or,Bool.not_eq_false,Bool.not_eq_true] at gone
      exact ⟨s,0,rfl,rfl,rfl,bound,.inr (.inr ⟨by simp,full_iff.mp full,gone.1,gone.2,_,rfl⟩)⟩
    · have room : s.level ≠ 512 := fun level => full (full_iff.mpr level)
      have level : (s.put k c).level = s.level + 1 := by
        rw [State.level] at bound
        exact toNat_sub_succ (w := s.pipe.nwrite) (r := s.pipe.nread) (by omega)
      obtain ⟨t,stored,readopen,writeopen,grown,fits,outcome⟩ := ih (s := s.put k c) (by omega)
      refine ⟨t,stored + 1,readopen,writeopen,by omega,fits,?_⟩
      rcases outcome with ⟨all,done⟩ | ⟨part,filled,gone,done⟩ | ⟨part,filled,readable,alive,back,done⟩
      · exact .inl ⟨by simp [all],done⟩
      · exact .inr (.inl ⟨by simpa using part,filled,gone,done⟩)
      · exact .inr (.inr ⟨by simpa using part,filled,readable,alive,back,done⟩)

theorem Placed.set {proc : ι → Proc} {readopen writeopen : Bool} (placed : Placed proc readopen writeopen) {i : ι} {p : Proc}
    (fits : p.Fits readopen writeopen) : Placed (update proc i p) readopen writeopen := by
  intro j
  rw [update_apply]
  split_ifs
  · exact fits
  · exact placed j

omit [DecidableEq ι] in
theorem wakeup_awake {proc : ι → Proc} {i : ι} (awake : (proc i).chan = none) (chan : Chan) : wakeup proc chan i = proc i := by
  simp [wakeup,awake]

theorem pipewrite_placed {i : ι} {k n : Nat} {rest : List UInt8} (placed : Placed s.proc s.pipe.readopen s.pipe.writeopen)
    (bound : s.level ≤ 512) (here : (s.proc i).pc = .write k n rest) (awake : (s.proc i).chan = none) :
    Placed (pipewrite i k n rest s).proc (pipewrite i k n rest s).pipe.readopen (pipewrite i k n rest s).pipe.writeopen := by
  have writable : s.pipe.writeopen = true := (placed i).writing (by rw [here]; rfl)
  obtain ⟨t,stored,readopen,writeopen,-,-,⟨-,done⟩ | ⟨-,-,-,done⟩ | ⟨-,-,-,-,back,done⟩⟩ :=
    pipewrite_cases (i := i) k n rest bound
  all_goals
    rw [done]
    dsimp only
    rw [readopen,writeopen]
  · refine (placed.wakeup .nread).set (Proc.fits_idle ?_ _ _)
    rw [wakeup_awake awake,awake]
  · exact placed.set (Proc.fits_idle awake _ _)
  · have called : Placed (goto (wakeup s.proc .nread) i (.write k n back)) s.pipe.readopen s.pipe.writeopen := by
      refine (placed.wakeup .nread).set ⟨?_,?_,?_,fun _ => writable⟩
      all_goals simp [wakeup_awake awake,awake,Pc.reading]
    refine called.set ⟨by simp,fun _ => ?_,(called i).reading,(called i).writing⟩
    simp [goto,Pc.writing]

theorem piperead_placed {i : ι} {n : Nat} (placed : Placed s.proc s.pipe.readopen s.pipe.writeopen)
    (here : (s.proc i).pc = .read n) (awake : (s.proc i).chan = none) :
    Placed (piperead i n s).proc (piperead i n s).pipe.readopen (piperead i n s).pipe.writeopen := by
  obtain ⟨-,readopen,writeopen⟩ := copy_frame s n
  rw [piperead]
  split_ifs with empty killed
  · exact placed.set (Proc.fits_idle awake _ _)
  · refine placed.set ⟨fun _ => ?_,by simp,(placed i).reading,(placed i).writing⟩
    rw [here]
    rfl
  · dsimp only
    rw [readopen,writeopen]
    refine (placed.wakeup .nwrite).set (Proc.fits_idle ?_ _ _)
    rw [wakeup_awake awake,awake]

omit [DecidableEq ι] in
theorem wakeup_none (proc : ι → Proc) (chan : Chan) (j : ι) : (wakeup proc chan j).chan ≠ some chan := by
  rw [wakeup_chan]
  split_ifs with sleeps
  · simp
  · exact sleeps

theorem pipewrite_heard {i : ι} {k n : Nat} {rest : List UInt8} (placed : Placed s.proc s.pipe.readopen s.pipe.writeopen)
    (heard : Heard s) (bound : s.level ≤ 512) :
    Heard (pipewrite i k n rest s) ↔
      ((s.proc i).killed = true → 512 < rest.length → ∀ j, (s.proc j).chan ≠ some .nread) := by
  have asleep {j : ι} (sleeps : (wakeup s.proc .nread j).chan = some .nwrite) : (s.proc j).chan = some .nwrite := by
    rw [wakeup_chan] at sleeps
    split_ifs at sleeps
    exact sleeps
  obtain ⟨t,stored,readopen,writeopen,level,fits,⟨all,done⟩ | ⟨part,filled,gone,done⟩ | ⟨-,filled,readable,alive,back,done⟩⟩ :=
    pipewrite_cases (i := i) k n rest bound
  -- all is stored, and the readers are woken
  · refine iff_of_true ?_ fun _ long j sleeps => ?_
    · rw [done]
      refine ⟨fun j sleeps => ?_,fun j sleeps => ?_⟩
      · rw [goto_chan] at sleeps
        exact absurd sleeps (wakeup_none s.proc .nread j)
      · rw [goto_chan] at sleeps
        have full := heard.full (asleep sleeps)
        exact ⟨full_iff.mpr (show t.level = 512 by omega),readopen.trans (heard.2 j (asleep sleeps)).2⟩
    · omega
  -- the buffer is full and the writer gives up: a reader that sleeps is not woken
  · rw [done]
    constructor
    · intro after _ _ j sleeps
      have empty : t.level = 0 := empty_iff.mp (after.1 j (by rw [goto_chan]; exact sleeps)).1
      omega
    · intro spared
      refine ⟨fun j sleeps => ?_,fun j sleeps => ?_⟩
      · rw [goto_chan] at sleeps
        have empty := heard.empty sleeps
        have opened := (placed j).reading ((placed j).reader sleeps)
        have killed : (s.proc i).killed = true := gone.resolve_left (by simp [opened])
        exact absurd sleeps (spared killed (by omega) j)
      · rw [goto_chan] at sleeps
        exact ⟨full_iff.mpr filled,readopen.trans (heard.2 j sleeps).2⟩
  -- the buffer is full and the writer sleeps, after it has woken the readers
  · refine iff_of_true ?_ fun killed => ?_
    · rw [done]
      refine ⟨fun j sleeps => ?_,fun j sleeps => ⟨full_iff.mpr filled,readopen.trans readable⟩⟩
      rw [sleep_chan,goto_chan] at sleeps
      split_ifs at sleeps
      · cases sleeps
      · exact absurd sleeps (wakeup_none s.proc .nread j)
    · rw [alive] at killed
      cases killed

theorem piperead_heard {i : ι} {n : Nat} (heard : Heard s) : Heard (piperead i n s) := by
  obtain ⟨-,readopen,writeopen⟩ := copy_frame s n
  rw [piperead]
  split_ifs with empty killed
  · refine ⟨fun j sleeps => heard.1 j ?_,fun j sleeps => heard.2 j ?_⟩
    · rwa [goto_chan] at sleeps
    · rwa [goto_chan] at sleeps
  · refine ⟨fun j sleeps => empty,fun j sleeps => heard.2 j ?_⟩
    rw [sleep_chan] at sleeps
    split_ifs at sleeps
    · cases sleeps
    · exact sleeps
  · refine ⟨fun j sleeps => ?_,fun j sleeps => ?_⟩
    · rw [goto_chan,wakeup_chan] at sleeps
      split_ifs at sleeps
      exact absurd (heard.1 j sleeps) empty
    · rw [goto_chan] at sleeps
      exact absurd sleeps (wakeup_none s.proc .nwrite j)

omit [DecidableEq ι] in
theorem Placed.awake (placed : Placed s.proc s.pipe.readopen s.pipe.writeopen) {i : ι} {result : Int}
    (idle : (s.proc i).pc = .idle result) : (s.proc i).chan = none := by
  cases sleeps : (s.proc i).chan with
  | none => rfl
  | some chan =>
    cases chan with
    | nread =>
      have := (placed i).reader sleeps
      rw [idle] at this
      cases this
    | nwrite =>
      have := (placed i).writer sleeps
      rw [idle] at this
      cases this

omit [DecidableEq ι] in
theorem pipeclose_placed (placed : Placed s.proc s.pipe.readopen s.pipe.writeopen) (writable : Bool)
    (last : ∀ j, (if writable then (s.proc j).pc.writing else (s.proc j).pc.reading) = false) :
    Placed (pipeclose writable s).proc (pipeclose writable s).pipe.readopen (pipeclose writable s).pipe.writeopen ∧
    Heard (pipeclose writable s) := by
  cases writable with
  | true =>
    replace last : ∀ j, (s.proc j).pc.writing = false := last
    obtain ⟨freed,closed⟩ := pipeclose_write s
    have woken := placed.wakeup .nread
    rw [closed]
    refine ⟨fun j => ⟨(woken j).reader,(woken j).writer,(woken j).reading,fun writing => ?_⟩,fun j sleeps => ?_,fun j sleeps => ?_⟩
    · rw [wakeup_pc,last j] at writing
      cases writing
    · exact absurd sleeps (wakeup_none s.proc .nread j)
    · have := (woken j).writer sleeps
      rw [wakeup_pc,last j] at this
      cases this
  | false =>
    replace last : ∀ j, (s.proc j).pc.reading = false := last
    obtain ⟨freed,closed⟩ := pipeclose_read s
    have woken := placed.wakeup .nwrite
    rw [closed]
    refine ⟨fun j => ⟨(woken j).reader,(woken j).writer,fun reading => ?_,(woken j).writing⟩,fun j sleeps => ?_,fun j sleeps => ?_⟩
    · rw [wakeup_pc,last j] at reading
      cases reading
    · have := (woken j).reader sleeps
      rw [wakeup_pc,last j] at this
      cases this
    · exact absurd sleeps (wakeup_none s.proc .nwrite j)

theorem step_heard [Fintype ι] (turn : ι × Move) (fifo : Fifo s) (placed : Placed s.proc s.pipe.readopen s.pipe.writeopen)
    (heard : Heard s) (stepped : step s turn = some s') :
    Placed s'.proc s'.pipe.readopen s'.pipe.writeopen ∧ (Heard s' ↔ Spared s turn) := by
  obtain ⟨i,m⟩ := turn
  have moved (pc : Pc) : Heard {s with proc := goto s.proc i pc} :=
    ⟨fun j sleeps => heard.1 j (by rwa [goto_chan] at sleeps),fun j sleeps => heard.2 j (by rwa [goto_chan] at sleeps)⟩
  have other (differs : m ≠ .go) : Spared s (i,m) := fun _ _ _ going => absurd going differs
  obtain ⟨bytes,rfl,opened,⟨result,idle⟩,rfl⟩ | ⟨n,rfl,opened,⟨result,idle⟩,rfl⟩ | ⟨k,n,rest,rfl,here,awake,rfl⟩ |
    ⟨n,rfl,here,awake,rfl⟩ | ⟨rfl,last,rfl⟩ | ⟨rfl,last,rfl⟩ | ⟨rfl,rfl⟩ := step_cases stepped
  · refine ⟨placed.set ⟨?_,?_,?_,fun _ => opened⟩,iff_of_true (moved _) (other (by simp))⟩
    all_goals simp [placed.awake idle,Pc.reading]
  · refine ⟨placed.set ⟨?_,?_,fun _ => opened,?_⟩,iff_of_true (moved _) (other (by simp))⟩
    all_goals simp [placed.awake idle,Pc.writing]
  · refine ⟨pipewrite_placed placed fifo.bound here awake,(pipewrite_heard placed heard fifo.bound).trans ?_⟩
    constructor
    · intro spared k' n' rest' _ here' killed long
      rw [here] at here'
      cases here'
      exact spared killed long
    · intro spared killed long
      exact spared k n rest rfl here killed long
  · refine ⟨piperead_placed placed here awake,iff_of_true (piperead_heard heard) ?_⟩
    intro k' n' rest' _ here'
    rw [here] at here'
    cases here'
  · obtain ⟨placed,heard⟩ := pipeclose_placed placed true last
    exact ⟨placed,iff_of_true heard (other (by simp))⟩
  · obtain ⟨placed,heard⟩ := pipeclose_placed placed false last
    exact ⟨placed,iff_of_true heard (other (by simp))⟩
  · refine ⟨placed.set ⟨by simp,by simp,(placed i).reading,(placed i).writing⟩,iff_of_true ⟨?_,?_⟩ (other (by simp))⟩
    · intro j sleeps
      rw [kill_chan] at sleeps
      split_ifs at sleeps
      exact heard.1 j sleeps
    · intro j sleeps
      rw [kill_chan] at sleeps
      split_ifs at sleeps
      exact heard.2 j sleeps

end

/-- No wakeup is lost in a run exactly when no killed process gives up in `pipewrite` with the pipe filled while
a reader sleeps. -/
theorem wakeups_kept_iff {ι : Type} [DecidableEq ι] [Fintype ι] (s t : State ι) (turns : List (ι × Move)) (initial : Initial s)
    (ran : schedule step turns s = some t) : Always step Heard turns s ↔ Throughout step Spared turns s := by
  have keeps (s : State ι) (turn : ι × Move) (s' : State ι)
      (holds : Fifo s ∧ Placed s.proc s.pipe.readopen s.pipe.writeopen) (heard : Heard s) (stepped : step s turn = some s') :
      (Fifo s' ∧ Placed s'.proc s'.pipe.readopen s'.pipe.writeopen) ∧ (Heard s' ↔ Spared s turn) := by
    obtain ⟨placed,same⟩ := step_heard turn holds.1 holds.2 heard stepped
    exact ⟨⟨step_fifo turn holds.1 stepped,placed⟩,same⟩
  exact always_iff_throughout keeps ⟨initial.fifo,initial.placed⟩ initial.heard ran

theorem wakeups_kept_boot : ∃ t, schedule step [(1,.read 4),(1,.go),(0,.write [7,8]),(0,.go),(1,.go)] boot = some t ∧
    Always step Heard [(1,.read 4),(1,.go),(0,.write [7,8]),(0,.go),(1,.go)] boot := by
  have run : (schedule step [(1,.read 4),(1,.go),(0,.write [7,8]),(0,.go),(1,.go)] boot).map State.delivered =
      some [7,8] := by decide +kernel
  obtain ⟨t,ran,-⟩ := Option.map_eq_some_iff.mp run
  refine ⟨t,ran,(wakeups_kept_iff boot t _ boot_initial ran).mpr ?_⟩
  have alive : Throughout step (fun s turn => (s.proc turn.1).killed = false)
      [(1,.read 4),(1,.go),(0,.write [7,8]),(0,.go),(1,.go)] boot := by decide +kernel
  refine alive.mono fun s turn alive k n rest _ _ killed => ?_
  rw [alive] at killed
  cases killed

/-- A writer of 513 bytes that is killed fills the pipe and leaves a reader asleep. -/
theorem killed_writer_leaves_reader : ∃ t, schedule step
    [(1,.read 1),(1,.go),(0,.write (List.replicate 513 7)),(0,.kill),(0,.go)] boot = some t ∧ ¬Heard t := by
  have run : (schedule step [(1,.read 1),(1,.go),(0,.write (List.replicate 513 7)),(0,.kill),(0,.go)] boot).map
      (fun t => ((t.proc 1).chan,t.pipe.nread,t.pipe.nwrite)) = some (some .nread,0,512) := by decide +kernel
  obtain ⟨t,ran,seen⟩ := Option.map_eq_some_iff.mp run
  simp only [Prod.mk.injEq] at seen
  obtain ⟨sleeps,nread,nwrite⟩ := seen
  refine ⟨t,ran,fun heard => ?_⟩
  have empty := (heard.1 1 sleeps).1
  rw [nread,nwrite] at empty
  exact absurd empty (by decide)

end Xv6Ext2.Pipes
