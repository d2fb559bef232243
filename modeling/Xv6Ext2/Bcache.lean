import Mathlib
import Xv6Ext2.Lib.Links
import Xv6Ext2.Lib.Schedule
import Xv6Ext2.Log
import Xv6Ext2.Ptable

/-! The NBUF buffers of the cache, in the list that `bget` searches and `brelse` reorders, under any interleaving
of processes. What a process does under `bcache.lock` is one step; it may wait for the sleep-lock of a buffer
and for the disk between two steps. The contents of the blocks are left out. -/
namespace Xv6Ext2.Bcache
open Lib Ptable Log Function

def nbuf : Nat := maxopblocks * 3

instance : NeZero nbuf := ⟨by decide⟩

abbrev Bufno := Fin nbuf

abbrev Pid := Fin nproc

/-- `struct buf`; `lock` is who holds the sleep-lock. -/
structure Buf where
  dev : UInt32
  blockno : UInt32
  valid : Bool
  dirty : Bool
  refcnt : UInt32
  lock : Option Pid

/-- Where a process is: outside, in `acquiresleep` at the end of `bget`, in `iderw`, or in `brelse` after
`releasesleep`. -/
inductive Pc where
  | run
  | acquire (b : Bufno)
  | disk (b : Bufno)
  | release (b : Bufno)
  deriving DecidableEq

/-- `history` lists the releases to refcnt 0, the last first. `hung` says that a search of the list has not ended. -/
structure State where
  list : Links Bufno
  buf : Bufno → Buf
  pc : Pid → Pc
  lh : List UInt32
  size : Nat
  outstanding : Nat
  history : List Bufno
  panicked : Option String
  hung : Bool

namespace State

def set (s : State) (b : Bufno) (buf : Buf) : State := {s with buf := update s.buf b buf}

def goto (s : State) (p : Pid) (pc : Pc) : State := {s with pc := update s.pc p pc}

def panic (s : State) (message : String) : State := {s with panicked := some message}

def cached (s : State) (dev blockno : UInt32) (b : Bufno) : Bool := (s.buf b).dev = dev ∧ (s.buf b).blockno = blockno

/-- What `bget` may recycle. -/
def unused (s : State) (b : Bufno) : Bool := (s.buf b).refcnt = 0 ∧ (s.buf b).dirty = false

end State

/-- The list that `binit` makes. -/
def binit : Links Bufno := (List.finRange nbuf).foldl Links.push Links.empty

/-- `bget` up to `acquiresleep`. -/
def bget (s : State) (p : Pid) (dev blockno : UInt32) : State :=
  match Links.seek s.list.next (s.cached dev blockno) nbuf (s.list.next none) with
  | none => {s with hung := true}
  | some (some b) => (s.set b {s.buf b with refcnt := (s.buf b).refcnt + 1}).goto p (.acquire b)
  | some none =>
    match Links.seek s.list.prev s.unused nbuf (s.list.prev none) with
    | none => {s with hung := true}
    | some (some b) =>
      (s.set b ⟨dev,blockno,false,false,1,(s.buf b).lock⟩).goto p (.acquire b)
    | some none => s.panic "bget: no buffers"

/-- `brelse` after `releasesleep`. -/
def brelse (s : State) (b : Bufno) : State :=
  let refcnt := (s.buf b).refcnt - 1
  let s := s.set b {s.buf b with refcnt := refcnt}
  if refcnt = 0 then {s with list := (s.list.unlink b).push b, history := b :: s.history} else s

def logWrite (s : State) (b : Bufno) : State :=
  if s.lh.length ≥ logsize ∨ s.lh.length + 1 ≥ s.size then s.panic "too big a transaction"
  else if s.outstanding < 1 then s.panic "log_write outside of trans"
  else
    let blockno := (s.buf b).blockno
    let lh := if blockno ∈ s.lh then s.lh else s.lh ++ [blockno]
    {s with lh := lh}.set b {s.buf b with dirty := true}

/-- A process enters one of the functions, a sleep-lock or the disk lets it go on, or the log changes between two
`log_write`. -/
inductive Move where
  | bget (p : Pid) (dev blockno : UInt32)
  | acquired (p : Pid)
  | read (p : Pid) (b : Bufno)
  | bwrite (p : Pid) (b : Bufno)
  | done (p : Pid)
  | logWrite (p : Pid) (b : Bufno)
  | brelse (p : Pid) (b : Bufno)
  | released (p : Pid)
  | log (lh : List UInt32) (size outstanding : Nat)

def step (s : State) (m : Move) : Option State :=
  if s.panicked ≠ none ∨ s.hung then none
  else match m with
    | .bget p dev blockno => if s.pc p = .run ∧ (dev = 1 ∨ dev = 2) then some (bget s p dev blockno) else none
    | .acquired p =>
      match s.pc p with
      | .acquire b => if (s.buf b).lock = none then some ((s.set b {s.buf b with lock := some p}).goto p .run) else none
      | _ => none
    | .read p b =>
      if s.pc p = .run ∧ (s.buf b).lock = some p ∧ (s.buf b).valid = false then some (s.goto p (.disk b)) else none
    | .bwrite p b =>
      if s.pc p ≠ .run then none
      else if (s.buf b).lock ≠ some p then some (s.panic "bwrite")
      else some ((s.set b {s.buf b with dirty := true}).goto p (.disk b))
    | .done p =>
      match s.pc p with
      | .disk b => some ((s.set b {s.buf b with valid := true, dirty := false}).goto p .run)
      | _ => none
    | .logWrite p b => if s.pc p = .run then some (logWrite s b) else none
    | .brelse p b =>
      if s.pc p = .run ∧ (s.buf b).lock = some p then
        some ((s.set b {s.buf b with lock := none}).goto p (.release b))
      else none
    | .released p =>
      match s.pc p with
      | .release b => some ((brelse s b).goto p .run)
      | _ => none
    | .log lh size outstanding => some {s with lh := lh, size := size, outstanding := outstanding}

/-- After `binit`; the rest of the memory is zero. -/
def boot : State where
  list := binit
  buf := fun _ => ⟨0,0,false,false,0,none⟩
  pc := fun _ => .run
  lh := []
  size := 0
  outstanding := 0
  history := []
  panicked := none
  hung := false

/-- The list has every buffer once, those released last first and those never released at its end. -/
structure Ordered (list : Links Bufno) (history l : List Bufno) : Prop where
  linked : list.Linked l
  once : l.Nodup
  all : ∀ b, b ∈ l
  recent : l.Pairwise (fun a b => history.idxOf a ≤ history.idxOf b)

def Pc.stake (b : Bufno) : Pc → Nat
  | .acquire c => if c = b then 1 else 0
  | .release c => if c = b then 1 else 0
  | _ => 0

def Buf.holders (buf : Buf) : Nat := if buf.lock = none then 0 else 1

structure Sound (s : State) : Prop where
  order : ∃ l, Ordered s.list s.history l
  unique : ∀ b c, (s.buf b).dev ≠ 0 → (s.buf c).dev = (s.buf b).dev → (s.buf c).blockno = (s.buf b).blockno → c = b
  counted : ∀ b, (s.buf b).refcnt.toNat = ∑ p, (s.pc p).stake b + (s.buf b).holders
  searched : s.hung = false

namespace Ordered

variable {list : Links Bufno} {history l : List Bufno}

theorem enough (order : Ordered list history l) : l.length ≤ nbuf := by
  have short := order.once.length_le_card
  rwa [Fintype.card_fin] at short

theorem seek_next (order : Ordered list history l) (test : Bufno → Bool) :
    Links.seek list.next test nbuf (list.next none) = some (l.find? test) := order.linked.seek_next test order.enough

theorem seek_prev (order : Ordered list history l) (test : Bufno → Bool) :
    Links.seek list.prev test nbuf (list.prev none) = some (l.reverse.find? test) := order.linked.seek_prev test order.enough

theorem moved (order : Ordered list history l) (b : Bufno) : Ordered ((list.unlink b).push b) (b :: history) (b :: l.erase b) := by
  have once : (l.erase b).Nodup := order.once.erase b
  have fresh : b ∉ l.erase b := fun mem => ((order.once.mem_erase_iff).mp mem).1 rfl
  refine ⟨(order.linked.unlink order.once (order.all b)).push once fresh,List.nodup_cons.mpr ⟨fresh,once⟩,fun c => ?_,?_⟩
  · by_cases same : c = b
    · simp [same]
    · exact List.mem_cons_of_mem _ (order.once.mem_erase_iff.mpr ⟨same,order.all c⟩)
  · have apart : ∀ c ∈ l.erase b, (b :: history).idxOf c = history.idxOf c + 1 := fun c mem =>
      List.idxOf_cons_ne _ (fun same => fresh (same ▸ mem))
    refine List.pairwise_cons.mpr ⟨fun c mem => by simp,?_⟩
    refine (order.recent.sublist List.erase_sublist).imp_of_mem ?_
    intro c d memc memd before
    rw [apart c memc,apart d memd]
    omega

theorem oldest (order : Ordered list history l) {test : Bufno → Bool} {b : Bufno} (found : l.reverse.find? test = some b)
    (c : Bufno) (passes : test c = true) : history.idxOf c ≤ history.idxOf b := by
  obtain ⟨-,later,earlier,split,fails⟩ := List.find?_eq_some_iff_append.mp found
  have whole : l = earlier.reverse ++ b :: later.reverse := by
    rw [← List.reverse_reverse l,split]
    simp
  have mem := order.all c
  have recent := order.recent
  rw [whole] at mem recent
  obtain before | same | after : c ∈ earlier.reverse ∨ c = b ∨ c ∈ later.reverse := by simpa using mem
  · exact (List.pairwise_append.mp recent).2.2 c before b (by simp)
  · rw [same]
  · have fail := fails c (by simpa using after)
    simp [passes] at fail

end Ordered

theorem boot_sound : Sound boot := by
  have once : ((List.finRange nbuf).reverse ++ []).Nodup := by simpa using List.nodup_finRange nbuf
  refine ⟨⟨_,Links.linked_empty.pushes List.nodup_nil once,once,by simp,?_⟩,by simp [boot],fun b => ?_,rfl⟩
  · exact List.pairwise_of_forall (fun _ _ => by simp [boot])
  · simp [boot,Pc.stake,Buf.holders]

namespace Sound

variable {s : State} {b : Bufno} {p : Pid}

theorem small (sound : Sound s) (b : Bufno) : (s.buf b).refcnt.toNat ≤ nproc + 1 := by
  rw [sound.counted b]
  have one : ∀ p, (s.pc p).stake b ≤ 1 := by
    intro p
    cases s.pc p <;> grind [Pc.stake]
  have total : ∑ p, (s.pc p).stake b ≤ nproc := by
    have bound := Finset.sum_le_card_nsmul Finset.univ (fun p => (s.pc p).stake b) 1 fun p _ => one p
    simpa using bound
  have lock : (s.buf b).holders ≤ 1 := by unfold Buf.holders; split <;> omega
  omega

theorem panic (sound : Sound s) (message : String) : Sound (s.panic message) :=
  ⟨sound.order,sound.unique,sound.counted,sound.searched⟩

theorem apart (sound : Sound s) (nonzero : (s.buf b).dev ≠ 0) {c : Bufno} (other : c ≠ b) :
    ¬((s.buf c).dev = (s.buf b).dev ∧ (s.buf c).blockno = (s.buf b).blockno) :=
  fun same => other (sound.unique b c nonzero same.1 same.2)

theorem moved (sound : Sound s) {buf : Buf} {pc : Pc}
    (apart : buf.dev ≠ 0 → ∀ c, c ≠ b → ¬((s.buf c).dev = buf.dev ∧ (s.buf c).blockno = buf.blockno))
    (balance : buf.refcnt.toNat + (s.pc p).stake b + (s.buf b).holders = (s.buf b).refcnt.toNat + pc.stake b + buf.holders)
    (others : ∀ c, c ≠ b → (s.pc p).stake c = pc.stake c) : Sound ((s.set b buf).goto p pc) := by
  refine ⟨sound.order,fun c d nonzero dev blockno => ?_,fun c => ?_,sound.searched⟩
  · have unique := sound.unique
    simp only [State.goto,State.set,update_apply] at nonzero dev blockno
    grind
  · have total := sum_moved s.pc (Pc.stake c) p pc
    have before := sound.counted c
    change (update s.buf b buf c).refcnt.toNat = ∑ q, (update s.pc p pc q).stake c + (update s.buf b buf c).holders
    by_cases same : c = b
    · subst same
      rw [update_self]
      omega
    · rw [update_of_ne same]
      have := others c same
      omega

theorem kept (sound : Sound s) {buf : Buf} {pc : Pc} (dev : buf.dev = (s.buf b).dev) (blockno : buf.blockno = (s.buf b).blockno)
    (balance : buf.refcnt.toNat + (s.pc p).stake b + (s.buf b).holders = (s.buf b).refcnt.toNat + pc.stake b + buf.holders)
    (others : ∀ c, c ≠ b → (s.pc p).stake c = pc.stake c) : Sound ((s.set b buf).goto p pc) := by
  refine sound.moved (fun nonzero c other => ?_) balance others
  rw [dev,blockno]
  exact sound.apart (dev ▸ nonzero) other

theorem reordered (sound : Sound s) (b : Bufno) :
    Sound {s with list := (s.list.unlink b).push b, history := b :: s.history} := by
  obtain ⟨l,order⟩ := sound.order
  exact ⟨⟨_,order.moved b⟩,sound.unique,sound.counted,sound.searched⟩

theorem bget_cases (sound : Sound s) (p : Pid) (dev blockno : UInt32) :
    (∃ b, s.cached dev blockno b = true ∧
      bget s p dev blockno = (s.set b {s.buf b with refcnt := (s.buf b).refcnt + 1}).goto p (.acquire b)) ∨
    (∀ b, s.cached dev blockno b = false) ∧
      ((∃ b, s.unused b = true ∧ (∀ c, s.unused c = true → s.history.idxOf c ≤ s.history.idxOf b) ∧
        bget s p dev blockno = (s.set b ⟨dev,blockno,false,false,1,(s.buf b).lock⟩).goto p (.acquire b)) ∨
      (∀ b, s.unused b = false) ∧ bget s p dev blockno = s.panic "bget: no buffers") := by
  obtain ⟨l,order⟩ := sound.order
  unfold bget
  rw [order.seek_next,order.seek_prev]
  cases hit : l.find? (s.cached dev blockno) with
  | some b => exact .inl ⟨b,List.find?_some hit,rfl⟩
  | none =>
    have miss : ∀ b, s.cached dev blockno b = false := fun b => by
      simpa using List.find?_eq_none.mp hit b (order.all b)
    refine .inr ⟨miss,?_⟩
    cases chosen : l.reverse.find? s.unused with
    | some b => exact .inl ⟨b,List.find?_some chosen,fun c => order.oldest chosen c,rfl⟩
    | none =>
      have busy : ∀ b, s.unused b = false := fun b => by
        simpa using List.find?_eq_none.mp chosen b (by simpa using order.all b)
      exact .inr ⟨busy,rfl⟩

theorem bget (sound : Sound s) {dev blockno : UInt32} (running : s.pc p = .run) : Sound (bget s p dev blockno) := by
  obtain ⟨b,-,same⟩ | ⟨miss,⟨b,unused,-,same⟩ | ⟨-,same⟩⟩ := sound.bget_cases p dev blockno
  · rw [same]
    have more : ((s.buf b).refcnt + 1).toNat = (s.buf b).refcnt.toNat + 1 := by
      have small := sound.small b
      have few : nproc = 64 := rfl
      rw [UInt32.toNat_add,UInt32.toNat_one]
      omega
    refine sound.kept rfl rfl ?_ (fun c other => ?_)
    · simp only [more,running,Pc.stake,Buf.holders,if_true]
    · simp [running,Pc.stake,Ne.symm other]
  · rw [same]
    have none_held : (s.buf b).refcnt.toNat = 0 := by
      have zero : (s.buf b).refcnt = 0 := by
        simp only [State.unused,decide_eq_true_eq] at unused
        exact unused.1
      rw [zero]
      rfl
    refine sound.moved (fun _ c _ hit => ?_) ?_ (fun c other => ?_)
    · have := miss c
      simp [State.cached,hit] at this
    · simp only [none_held,running,Pc.stake,Buf.holders,if_true,UInt32.toNat_one]
    · simp [running,Pc.stake,Ne.symm other]
  · rw [same]
    exact sound.panic _

theorem brelse (sound : Sound s) (releasing : s.pc p = .release b) : Sound ((brelse s b).goto p .run) := by
  have stake : (s.pc p).stake b ≤ ∑ q, (s.pc q).stake b :=
    Finset.single_le_sum (f := fun q => (s.pc q).stake b) (fun _ _ => Nat.zero_le _) (Finset.mem_univ p)
  have mine : (s.pc p).stake b = 1 := by simp [releasing,Pc.stake]
  have counted := sound.counted b
  have less : ((s.buf b).refcnt - 1).toNat = (s.buf b).refcnt.toNat - 1 := by
    rw [UInt32.toNat_sub_of_le]
    · rfl
    · rw [UInt32.le_iff_toNat_le,UInt32.toNat_one]
      omega
  have kept : Sound ((s.set b {s.buf b with refcnt := (s.buf b).refcnt - 1}).goto p .run) := by
    refine sound.kept rfl rfl ?_ (fun c other => ?_)
    · simp only [less,mine]
      simp only [Pc.stake,Buf.holders]
      omega
    · simp [releasing,Pc.stake,Ne.symm other]
  unfold Bcache.brelse
  simp only
  split
  · exact kept.reordered b
  · exact kept

end Sound

structure Same (s s' : State) : Prop where
  list : s'.list = s.list
  history : s'.history = s.history
  hung : s'.hung = s.hung
  pc : s'.pc = s.pc
  key : ∀ b, (s'.buf b).dev = (s.buf b).dev ∧ (s'.buf b).blockno = (s.buf b).blockno
  count : ∀ b, (s'.buf b).refcnt = (s.buf b).refcnt ∧ (s'.buf b).lock = (s.buf b).lock

/-- Process `p` goes on and changes buffer `b`, which stays with its block; its refcnt counts the same processes as before. -/
structure Turn (s : State) (p : Pid) (b : Bufno) (buf : Buf) (pc : Pc) : Prop where
  dev : buf.dev = (s.buf b).dev
  blockno : buf.blockno = (s.buf b).blockno
  balance : buf.refcnt.toNat + (s.pc p).stake b + (s.buf b).holders = (s.buf b).refcnt.toNat + pc.stake b + buf.holders
  others : ∀ c, c ≠ b → (s.pc p).stake c = pc.stake c

theorem panic_same (s : State) (message : String) : Same s (s.panic message) :=
  ⟨rfl,rfl,rfl,rfl,fun _ => ⟨rfl,rfl⟩,fun _ => ⟨rfl,rfl⟩⟩

theorem logWrite_same (s : State) (b : Bufno) : Same s (logWrite s b) := by
  unfold logWrite
  split
  · exact panic_same s _
  · split
    · exact panic_same s _
    · refine ⟨rfl,rfl,rfl,rfl,fun c => ?_,fun c => ?_⟩ <;> simp only [State.set,update_apply] <;> split <;> simp_all

theorem step_cases {s s' : State} {m : Move} (stepped : step s m = some s') :
    (∃ p dev blockno, m = .bget p dev blockno ∧ s.pc p = .run ∧ s' = bget s p dev blockno) ∨
    (∃ p b buf pc, s' = (s.set b buf).goto p pc ∧ Turn s p b buf pc) ∨
    (∃ p b, s.pc p = .release b ∧ s' = (brelse s b).goto p .run) ∨ Same s s' := by
  unfold step at stepped
  split_ifs at stepped with stopped
  cases m with
  | bget p dev blockno =>
    simp only at stepped
    split_ifs at stepped with runs
    exact .inl ⟨p,dev,blockno,rfl,runs.1,(Option.some.inj stepped).symm⟩
  | acquired p =>
    simp only at stepped
    split at stepped
    · rename_i b waits
      split_ifs at stepped with free
      refine .inr (.inl ⟨p,b,_,_,(Option.some.inj stepped).symm,rfl,rfl,?_,fun c other => ?_⟩)
      · simp [waits,free,Pc.stake,Buf.holders]
      · simp [waits,Pc.stake,Ne.symm other]
    · cases stepped
  | read p b =>
    simp only at stepped
    split_ifs at stepped with runs
    refine .inr (.inl ⟨p,b,s.buf b,.disk b,?_,rfl,rfl,?_,fun c other => ?_⟩)
    · rw [State.set,update_eq_self]
      exact (Option.some.inj stepped).symm
    · simp [runs.1,Pc.stake]
    · simp [runs.1,Pc.stake]
  | bwrite p b =>
    simp only at stepped
    split_ifs at stepped with runs held
    · obtain rfl := Option.some.inj stepped
      exact .inr (.inr (.inr (panic_same s _)))
    · have running : s.pc p = .run := by simpa using runs
      refine .inr (.inl ⟨p,b,_,_,(Option.some.inj stepped).symm,rfl,rfl,?_,fun c other => ?_⟩)
      · simp [running,Pc.stake,Buf.holders]
      · simp [running,Pc.stake]
  | done p =>
    simp only at stepped
    split at stepped
    · rename_i b waits
      refine .inr (.inl ⟨p,b,_,_,(Option.some.inj stepped).symm,rfl,rfl,?_,fun c other => ?_⟩)
      · simp [waits,Pc.stake,Buf.holders]
      · simp [waits,Pc.stake]
    · cases stepped
  | logWrite p b =>
    simp only at stepped
    split_ifs at stepped with runs
    obtain rfl := Option.some.inj stepped
    exact .inr (.inr (.inr (logWrite_same s b)))
  | brelse p b =>
    simp only at stepped
    split_ifs at stepped with holds
    refine .inr (.inl ⟨p,b,_,_,(Option.some.inj stepped).symm,rfl,rfl,?_,fun c other => ?_⟩)
    · simp [holds.1,holds.2,Pc.stake,Buf.holders]
    · simp [holds.1,Pc.stake,Ne.symm other]
  | released p =>
    simp only at stepped
    split at stepped
    · rename_i b releasing
      exact .inr (.inr (.inl ⟨p,b,releasing,(Option.some.inj stepped).symm⟩))
    · cases stepped
  | log lh size outstanding =>
    obtain rfl := Option.some.inj stepped
    exact .inr (.inr (.inr ⟨rfl,rfl,rfl,rfl,fun _ => ⟨rfl,rfl⟩,fun _ => ⟨rfl,rfl⟩⟩))

theorem Sound.same {s s' : State} (sound : Sound s) (same : Same s s') : Sound s' := by
  refine ⟨?_,fun b c => ?_,fun b => ?_,?_⟩
  · rw [same.list,same.history]
    exact sound.order
  · rw [(same.key b).1,(same.key b).2,(same.key c).1,(same.key c).2]
    exact sound.unique b c
  · rw [(same.count b).1,Buf.holders,(same.count b).2,same.pc]
    exact sound.counted b
  · rw [same.hung]
    exact sound.searched

theorem Sound.step {s s' : State} {m : Move} (sound : Sound s) (stepped : step s m = some s') : Sound s' := by
  obtain ⟨p,dev,blockno,-,running,rfl⟩ | ⟨p,b,buf,pc,rfl,turn⟩ | ⟨p,b,releasing,rfl⟩ | same := step_cases stepped
  · exact sound.bget running
  · exact sound.kept turn.dev turn.blockno turn.balance turn.others
  · exact sound.brelse releasing
  · exact sound.same same

def Reassigned (s s' : State) (b : Bufno) : Prop :=
  ¬((s'.buf b).dev = (s.buf b).dev ∧ (s'.buf b).blockno = (s.buf b).blockno)

theorem Sound.recycles {s s' : State} {m : Move} (sound : Sound s) (stepped : Bcache.step s m = some s') {b : Bufno}
    (other : Reassigned s s' b) : (∃ p dev blockno, m = .bget p dev blockno ∧ ∀ c, s.cached dev blockno c = false) ∧
      s.unused b = true ∧ ∀ c, s.unused c = true → s.history.idxOf c ≤ s.history.idxOf b := by
  have set_key : ∀ (t : State) c (buf : Buf) p pc, t.buf = s.buf → buf.dev = (s.buf c).dev → buf.blockno = (s.buf c).blockno →
      ¬Reassigned s ((t.set c buf).goto p pc) b := by
    intro t c buf p pc start dev blockno
    by_cases same : b = c <;> simp [Reassigned,State.set,State.goto,start,same,dev,blockno]
  obtain ⟨p,dev,blockno,rfl,-,rfl⟩ | ⟨p,c,buf,pc,rfl,turn⟩ | ⟨p,c,-,rfl⟩ | same := step_cases stepped
  · obtain ⟨c,-,hit⟩ | ⟨miss,⟨c,unused,oldest,taken⟩ | ⟨-,none_left⟩⟩ := sound.bget_cases p dev blockno
    · rw [hit] at other
      exact absurd other (set_key s c _ p _ rfl rfl rfl)
    · have here : b = c := by
        by_contra apart
        rw [taken] at other
        simp [Reassigned,State.set,State.goto,apart] at other
      exact ⟨⟨p,dev,blockno,rfl,miss⟩,here ▸ unused,here ▸ oldest⟩
    · rw [none_left] at other
      simp [Reassigned,State.panic] at other
  · exact absurd other (set_key s c _ p _ rfl turn.dev turn.blockno)
  · unfold Bcache.brelse at other
    simp only at other
    split at other
    · exact absurd other (set_key s c _ p .run rfl rfl rfl)
    · exact absurd other (set_key s c _ p .run rfl rfl rfl)
  · exact absurd (same.key b) other

/-- In every state between two sections under `bcache.lock`, whatever processes have done, the list has every buffer
once in both directions, no block has two buffers, and the next step can give only an unused clean buffer to another block, of these the
one whose release is oldest, never released ones first. A buffer that a process holds, waits for or is about to release
has a positive refcnt. -/
theorem buffer_cache (moves : List Move) (s : State) (ran : schedule step moves boot = some s) :
    (∃ l, s.list.Linked l ∧ l.Nodup ∧ ∀ b, b ∈ l) ∧
    (∀ b c, (s.buf b).dev ≠ 0 → (s.buf c).dev = (s.buf b).dev → (s.buf c).blockno = (s.buf b).blockno → c = b) ∧
    (∀ b p, (s.buf b).lock = some p ∨ s.pc p = .acquire b ∨ s.pc p = .release b → 0 < (s.buf b).refcnt) ∧ s.hung = false ∧
    ∀ m s', step s m = some s' → ∀ b, Reassigned s s' b →
      (s.buf b).refcnt = 0 ∧ (s.buf b).dirty = false ∧
      (∃ p dev blockno, m = .bget p dev blockno ∧ ∀ c, ¬((s.buf c).dev = dev ∧ (s.buf c).blockno = blockno)) ∧
      ∀ c, (s.buf c).refcnt = 0 → (s.buf c).dirty = false → s.history.idxOf c ≤ s.history.idxOf b := by
  have sound : Sound s := schedule_invariant (fun _ _ _ => Sound.step) boot_sound ran
  obtain ⟨l,order⟩ := sound.order
  refine ⟨⟨l,order.linked,order.once,order.all⟩,sound.unique,fun b p stake => ?_,sound.searched,fun m s' stepped b other => ?_⟩
  · have counted := sound.counted b
    have mine : (s.pc p).stake b ≤ ∑ q, (s.pc q).stake b :=
      Finset.single_le_sum (f := fun q => (s.pc q).stake b) (fun _ _ => Nat.zero_le _) (Finset.mem_univ p)
    rw [UInt32.lt_iff_toNat_lt,counted,UInt32.toNat_zero]
    obtain held | waits | leaves := stake
    · simp [Buf.holders,held]
    · rw [waits,Pc.stake,if_pos rfl] at mine
      omega
    · rw [leaves,Pc.stake,if_pos rfl] at mine
      omega
  · obtain ⟨⟨p,dev,blockno,rfl,miss⟩,unused,oldest⟩ := sound.recycles stepped other
    simp only [State.unused,State.cached,decide_eq_true_eq,decide_eq_false_iff_not] at unused oldest miss
    exact ⟨unused.1,unused.2,⟨p,dev,blockno,rfl,miss⟩,fun c free clean => oldest c ⟨free,clean⟩⟩

/-- Two processes use block 7 of device 1 in turn, then the first asks for block 9 of device 2. -/
def twoUsers : List Move :=
  [.bget 0 1 7,.bget 1 1 7,.acquired 0,.read 0 0,.done 0,.brelse 0 0,.acquired 1,.released 0,.brelse 1 0,.released 1]

/-- Block 9 gets the last buffer of the list, which was never used, and not the one of block 7. -/
theorem buffer_cache_never_used_first : ∃ s s', schedule step twoUsers boot = some s ∧ s.history = [0] ∧
    step s (.bget 0 2 9) = some s' ∧ Reassigned s s' 1 ∧ s.history.idxOf 0 ≤ s.history.idxOf (1 : Bufno) := by
  have run : ((schedule step twoUsers boot).map fun s => (s.history,(s.buf 0).refcnt,(s.buf 0).dirty,
      (step s (.bget 0 2 9)).map fun s' => ((s.buf 1).dev,(s'.buf 1).dev))) = some ([0],0,false,some (0,2)) := by decide +kernel
  obtain ⟨s,ran,facts⟩ := Option.map_eq_some_iff.mp run
  simp only [Prod.mk.injEq] at facts
  obtain ⟨history,refcnt,dirty,next⟩ := facts
  obtain ⟨s',stepped,devs⟩ := Option.map_eq_some_iff.mp next
  obtain ⟨before,after⟩ := Prod.mk.inj devs
  have other : Reassigned s s' 1 := by simp [Reassigned,before,after]
  obtain ⟨-,-,-,-,recycles⟩ := buffer_cache twoUsers s ran
  obtain ⟨-,-,-,oldest⟩ := recycles _ s' stepped 1 other
  exact ⟨s,s',ran,history,stepped,other,oldest 0 refcnt dirty⟩

end Xv6Ext2.Bcache
