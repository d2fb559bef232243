import Mathlib
import Xv6Ext2.Lib.Schedule
import Xv6Ext2.Lib.Window

/-! The pipe of pipe.c between any number of processes, with the sleeping and waking of proc.c. What a process
does between two points at which `p->lock` is free is one step. `sleep` releases the lock and changes the
state of the process in one step, since it holds `ptable.lock` meanwhile and `wakeup` and `kill` need that
lock. -/
namespace Xv6Ext2.Pipes
open Lib Function

def pipesize : UInt32 := 512

/-- `struct pipe` without its lock. -/
structure Pipe where
  data : Nat → UInt8
  nread : UInt32
  nwrite : UInt32
  readopen : Bool
  writeopen : Bool

/-- What a process sleeps on: `&p->nread` or `&p->nwrite`. -/
inductive Chan where
  | nread
  | nwrite
  deriving DecidableEq

/-- A process is outside, with the result of its last call; in `pipewrite`, call number `call` with `n` bytes, of
which `rest` are left; or in `piperead`. -/
inductive Pc where
  | idle (result : Int)
  | write (call n : Nat) (rest : List UInt8)
  | read (n : Nat)

namespace Pc

def writing : Pc → Bool
  | write _ _ _ => true
  | _ => false

def reading : Pc → Bool
  | read _ => true
  | _ => false

end Pc

structure Proc where
  pc : Pc
  chan : Option Chan
  killed : Bool

/-- `calls` lists what the calls of `pipewrite` were given, `stored` the bytes that have been stored with the
number of their call, and `delivered` the bytes that have been read. -/
structure State (ι : Type) where
  pipe : Pipe
  freed : Bool
  proc : ι → Proc
  calls : List (List UInt8)
  stored : List (Nat × UInt8)
  delivered : List UInt8

/-- A process calls `pipewrite` or `piperead`, goes on in its call, closes the last reference to an end of the
pipe, or is killed. -/
inductive Move where
  | write (bytes : List UInt8)
  | read (n : Nat)
  | go
  | close (writable : Bool)
  | kill

section

variable {ι : Type}

def wakeup (proc : ι → Proc) (chan : Chan) : ι → Proc :=
  fun j => if (proc j).chan = some chan then {proc j with chan := none} else proc j

namespace State

/-- `p->data[p->nwrite++ % PIPESIZE] = c` -/
def put (call : Nat) (s : State ι) (c : UInt8) : State ι :=
  {s with
    pipe := {s.pipe with
      data := update s.pipe.data (s.pipe.nwrite.toNat % pipesize.toNat) c
      nwrite := s.pipe.nwrite + 1}
    stored := s.stored ++ [(call,c)]}

/-- `addr[i] = p->data[p->nread++ % PIPESIZE]` -/
def take (s : State ι) : State ι :=
  {s with
    pipe := {s.pipe with nread := s.pipe.nread + 1}
    delivered := s.delivered ++ [s.pipe.data (s.pipe.nread.toNat % pipesize.toNat)]}

end State

/-- The second loop of `piperead`, and the number of bytes it copies. -/
def copy : Nat → State ι → Nat × State ι
  | 0, s => (0,s)
  | n + 1, s =>
    if s.pipe.nread = s.pipe.nwrite then (0,s)
    else ((copy n s.take).1 + 1,(copy n s.take).2)

def pipeclose (writable : Bool) (s : State ι) : State ι :=
  let s := if writable then {s with pipe := {s.pipe with writeopen := false}, proc := wakeup s.proc .nread}
    else {s with pipe := {s.pipe with readopen := false}, proc := wakeup s.proc .nwrite}
  if s.pipe.readopen = false ∧ s.pipe.writeopen = false then {s with freed := true} else s

/-- After `pipealloc`. -/
structure Initial (s : State ι) : Prop where
  nread : s.pipe.nread = 0
  nwrite : s.pipe.nwrite = 0
  readopen : s.pipe.readopen = true
  writeopen : s.pipe.writeopen = true
  awake : ∀ i, (s.proc i).chan = none
  idle : ∀ i, ∃ result, (s.proc i).pc = .idle result
  calls : s.calls = []
  stored : s.stored = []
  delivered : s.delivered = []

variable [DecidableEq ι]

def goto (proc : ι → Proc) (i : ι) (pc : Pc) : ι → Proc := update proc i {proc i with pc := pc}

def sleep (proc : ι → Proc) (i : ι) (chan : Chan) : ι → Proc := update proc i {proc i with chan := some chan}

def kill (proc : ι → Proc) (i : ι) : ι → Proc := update proc i {proc i with chan := none, killed := true}

/-- `pipewrite` from where it has the lock to where it releases it, with `rest` left to write. -/
def pipewrite (i : ι) (call n : Nat) : List UInt8 → State ι → State ι
  | [], s => {s with proc := goto (wakeup s.proc .nread) i (.idle n)}
  | c :: rest, s =>
    if s.pipe.nwrite = s.pipe.nread + pipesize then
      if s.pipe.readopen = false ∨ (s.proc i).killed then {s with proc := goto s.proc i (.idle (-1))}
      else {s with proc := sleep (goto (wakeup s.proc .nread) i (.write call n (c :: rest))) i .nwrite}
    else pipewrite i call n rest (s.put call c)

def piperead (i : ι) (n : Nat) (s : State ι) : State ι :=
  if s.pipe.nread = s.pipe.nwrite ∧ s.pipe.writeopen then
    if (s.proc i).killed then {s with proc := goto s.proc i (.idle (-1))} else {s with proc := sleep s.proc i .nread}
  else {(copy n s).2 with proc := goto (wakeup s.proc .nwrite) i (.idle (copy n s).1)}

/-- A process that is in a call has a reference to its end, so `fileclose` calls `pipeclose` when no process is in
a call at that end, and none enters one afterwards. -/
def step [Fintype ι] (s : State ι) (turn : ι × Move) : Option (State ι) :=
  let i := turn.1
  match turn.2, (s.proc i).pc with
  | .write bytes, .idle _ =>
    if s.pipe.writeopen then
      some {s with calls := s.calls ++ [bytes], proc := goto s.proc i (.write s.calls.length bytes.length bytes)}
    else none
  | .read n, .idle _ => if s.pipe.readopen then some {s with proc := goto s.proc i (.read n)} else none
  | .go, .write call n rest => if (s.proc i).chan = none then some (pipewrite i call n rest s) else none
  | .go, .read n => if (s.proc i).chan = none then some (piperead i n s) else none
  | .close true, .idle _ =>
    if s.pipe.writeopen ∧ ∀ j, (s.proc j).pc.writing = false then some (pipeclose true s) else none
  | .close false, .idle _ =>
    if s.pipe.readopen ∧ ∀ j, (s.proc j).pc.reading = false then some (pipeclose false s) else none
  | .kill, _ => some {s with proc := kill s.proc i}
  | _, _ => none

end

section

variable {ι : Type} [DecidableEq ι] (proc : ι → Proc) (i j : ι)

theorem goto_pc (pc : Pc) : (goto proc i pc j).pc = if j = i then pc else (proc j).pc := by
  simp only [goto,update_apply]
  split_ifs <;> rfl

theorem goto_chan (pc : Pc) : (goto proc i pc j).chan = (proc j).chan := by
  simp only [goto,update_apply]
  split_ifs with same
  · rw [same]
  · rfl

theorem sleep_pc (chan : Chan) : (sleep proc i chan j).pc = (proc j).pc := by
  simp only [sleep,update_apply]
  split_ifs with same
  · rw [same]
  · rfl

theorem sleep_chan (chan : Chan) : (sleep proc i chan j).chan = if j = i then some chan else (proc j).chan := by
  simp only [sleep,update_apply]
  split_ifs <;> rfl

theorem kill_pc : (kill proc i j).pc = (proc j).pc := by
  simp only [kill,update_apply]
  split_ifs with same
  · rw [same]
  · rfl

theorem kill_chan : (kill proc i j).chan = if j = i then none else (proc j).chan := by
  simp only [kill,update_apply]
  split_ifs <;> rfl

omit [DecidableEq ι]

theorem wakeup_pc (chan : Chan) : (wakeup proc chan j).pc = (proc j).pc := by
  simp only [wakeup]
  split_ifs <;> rfl

theorem wakeup_chan (chan : Chan) :
    (wakeup proc chan j).chan = if (proc j).chan = some chan then none else (proc j).chan := by
  simp only [wakeup]
  split_ifs <;> rfl

end

section

variable {ι : Type}

/-- The bytes of call `k` of `pipewrite` that have been stored, in the order in which they were stored. -/
def State.written (s : State ι) (k : Nat) : List UInt8 := (s.stored.filter (·.1 = k)).map Prod.snd

/-- What has been stored is what has been delivered and then what is in the buffer; what a call has left to write
is what is missing from what it has stored. -/
structure Fifo (s : State ι) : Prop where
  bound : (s.pipe.nwrite - s.pipe.nread).toNat ≤ 512
  stream : s.stored.map Prod.snd = s.delivered ++ window 512 s.pipe.data s.pipe.nread s.pipe.nwrite
  order : ∀ k bytes, s.calls[k]? = some bytes → s.written k <+: bytes
  left : ∀ i k n rest, (s.proc i).pc = .write k n rest → s.calls[k]? = some (s.written k ++ rest)
  alone : ∀ i j k n m rest more, (s.proc i).pc = .write k n rest → (s.proc j).pc = .write k m more → i = j
  known : ∀ k, s.calls.length ≤ k → s.written k = []

variable {s s' : State ι}

theorem Initial.fifo (initial : Initial s) : Fifo s where
  bound := by simp [initial.nread,initial.nwrite]
  stream := by simp [initial.nread,initial.nwrite,initial.stored,initial.delivered]
  order k bytes call := by simp [initial.calls] at call
  left i k n rest here := by
    obtain ⟨result,idle⟩ := initial.idle i
    rw [idle] at here
    cases here
  alone i j k n m rest more here := by
    obtain ⟨result,idle⟩ := initial.idle i
    rw [idle] at here
    cases here
  known k _ := by simp [State.written,initial.stored]

theorem Fifo.quiet (fifo : Fifo s) {proc : ι → Proc}
    (fewer : ∀ j k n rest, (proc j).pc = .write k n rest → (s.proc j).pc = .write k n rest) : Fifo {s with proc := proc} where
  bound := fifo.bound
  stream := fifo.stream
  order := fifo.order
  left j k n rest here := fifo.left j k n rest (fewer j k n rest here)
  alone i j k n m rest more here there := fifo.alone i j k n m rest more (fewer _ _ _ _ here) (fewer _ _ _ _ there)
  known := fifo.known

theorem full_iff : s.pipe.nwrite = s.pipe.nread + pipesize ↔ (s.pipe.nwrite - s.pipe.nread).toNat = 512 := by
  rw [← sub_eq_iff_eq_add',← UInt32.toNat_inj]
  rfl

theorem State.written_put (s : State ι) (k : Nat) (c : UInt8) (k' : Nat) :
    (s.put k c).written k' = if k' = k then s.written k ++ [c] else s.written k' := by
  rw [State.written,State.put,List.filter_append,List.map_append]
  split_ifs with same
  · simp [same,State.written]
  · simp [Ne.symm same,State.written]

theorem Fifo.take (fifo : Fifo s) (some : s.pipe.nread ≠ s.pipe.nwrite) : Fifo s.take where
  bound := by
    have shorter := toNat_succ_sub some
    have bound := fifo.bound
    simp only [State.take]
    omega
  stream := by
    simp only [State.take,List.append_assoc,List.singleton_append]
    rw [fifo.stream,window_take (n := 512) (by decide) some]
    rfl
  order := fifo.order
  left := fifo.left
  alone := fifo.alone
  known := fifo.known

theorem copy_fifo (fifo : Fifo s) (n : Nat) : Fifo (copy n s).2 := by
  induction n generalizing s with
  | zero => exact fifo
  | succ n ih =>
    rw [copy]
    split_ifs with empty
    · exact fifo
    · exact ih (fifo.take empty)

theorem copy_frame (s : State ι) (n : Nat) :
    (copy n s).2.proc = s.proc ∧ (copy n s).2.pipe.readopen = s.pipe.readopen ∧ (copy n s).2.pipe.writeopen = s.pipe.writeopen := by
  induction n generalizing s with
  | zero => exact ⟨rfl,rfl,rfl⟩
  | succ n ih =>
    rw [copy]
    split_ifs with empty
    · exact ⟨rfl,rfl,rfl⟩
    · exact ih s.take

variable [DecidableEq ι]

theorem Fifo.put {i : ι} {k n : Nat} {c : UInt8} {rest : List UInt8}
    (fifo : Fifo {s with proc := goto s.proc i (.write k n (c :: rest))}) (room : s.pipe.nwrite ≠ s.pipe.nread + pipesize) :
    Fifo {s.put k c with proc := goto s.proc i (.write k n rest)} := by
  have bound : (s.pipe.nwrite - s.pipe.nread).toNat ≤ 512 := fifo.bound
  rw [Ne,full_iff] at room
  have call : s.calls[k]? = some (s.written k ++ c :: rest) := fifo.left i k n (c :: rest) (by simp [goto_pc])
  have written (k' : Nat) : State.written {s.put k c with proc := goto s.proc i (.write k n rest)} k' =
      if k' = k then s.written k ++ [c] else s.written k' := s.written_put k c k'
  have other (j : ι) (m : Nat) (more : List UInt8) (there : (s.proc j).pc = .write k m more) : j = i := by
    by_contra different
    exact different (fifo.alone j i k m n more (c :: rest) (by simpa [goto_pc,different] using there) (by simp [goto_pc]))
  constructor
  · change (s.pipe.nwrite + 1 - s.pipe.nread).toNat ≤ 512
    rw [toNat_sub_succ (by omega)]
    omega
  · change (s.stored ++ [(k,c)]).map Prod.snd = s.delivered ++ window 512 _ s.pipe.nread (s.pipe.nwrite + 1)
    have stream : s.stored.map Prod.snd = s.delivered ++ window 512 s.pipe.data s.pipe.nread s.pipe.nwrite := fifo.stream
    rw [List.map_append,stream,List.append_assoc]
    congr 1
    exact (window_put (n := 512) (by decide) (by decide) (by omega) c).symm
  · intro k' bytes call'
    rw [written]
    split_ifs with same
    · subst same
      obtain rfl : _ = bytes := Option.some.inj (call.symm.trans call')
      exact ⟨rest,by simp⟩
    · exact fifo.order k' bytes call'
  · intro j k' m more there
    rw [goto_pc] at there
    rw [written]
    change s.calls[k']? = _
    split_ifs at there with here
    · cases there
      rw [if_pos rfl,call]
      simp
    · rw [if_neg]
      · exact fifo.left j k' m more (by simpa [goto_pc,here] using there)
      · rintro rfl
        exact here (other j m more there)
  · intro j j' k' m m' more more' there there'
    rw [goto_pc] at there there'
    by_cases here : j = i
    · rw [if_pos here] at there
      cases there
      by_cases here' : j' = i
      · rw [here,here']
      · rw [if_neg here'] at there'
        exact absurd (other j' m' more' there') here'
    · rw [if_neg here] at there
      by_cases here' : j' = i
      · rw [if_pos here'] at there'
        cases there'
        exact absurd (other j m more there) here
      · rw [if_neg here'] at there'
        exact fifo.alone j j' k' m m' more more' (by simpa [goto_pc,here] using there) (by simpa [goto_pc,here'] using there')
  · intro k' beyond
    rw [written,if_neg]
    · exact fifo.known k' beyond
    · rintro rfl
      exact Nat.not_lt.mpr beyond (List.getElem?_eq_some_iff.mp call).1

theorem pipewrite_fifo {i : ι} {k n : Nat} {rest : List UInt8}
    (fifo : Fifo {s with proc := goto s.proc i (.write k n rest)}) : Fifo (pipewrite i k n rest s) := by
  induction rest generalizing s with
  | nil =>
    refine fifo.quiet fun j k' m more there => ?_
    rw [goto_pc,wakeup_pc] at there
    split_ifs at there with here
    rw [goto_pc,if_neg here]
    exact there
  | cons c rest ih =>
    rw [pipewrite]
    split_ifs with full gone
    · refine fifo.quiet fun j k' m more there => ?_
      rw [goto_pc] at there
      split_ifs at there with here
      rw [goto_pc,if_neg here]
      exact there
    · refine fifo.quiet fun j k' m more there => ?_
      rwa [sleep_pc,goto_pc,wakeup_pc,← goto_pc] at there
    · exact ih (fifo.put full)

theorem piperead_fifo (fifo : Fifo s) (i : ι) (n : Nat) : Fifo (piperead i n s) := by
  rw [piperead]
  have out {t : State ι} (same : t.proc = s.proc) (fifo : Fifo t) (chan : Chan) (result : Int) :
      Fifo {t with proc := goto (wakeup s.proc chan) i (.idle result)} := by
    refine fifo.quiet fun j k m more there => ?_
    rw [goto_pc,wakeup_pc] at there
    split_ifs at there
    rw [same]
    exact there
  split_ifs with empty killed
  · refine fifo.quiet fun j k m more there => ?_
    rw [goto_pc] at there
    split_ifs at there
    exact there
  · exact fifo.quiet fun j k m more there => by rwa [sleep_pc] at there
  · exact out (copy_frame s n).1 (copy_fifo fifo n) _ _

theorem step_cases [Fintype ι] {i : ι} {m : Move} (stepped : step s (i,m) = some s') :
    (∃ bytes, m = .write bytes ∧ s.pipe.writeopen = true ∧ (∃ result, (s.proc i).pc = .idle result) ∧
      s' = {s with calls := s.calls ++ [bytes], proc := goto s.proc i (.write s.calls.length bytes.length bytes)}) ∨
    (∃ n, m = .read n ∧ s.pipe.readopen = true ∧ (∃ result, (s.proc i).pc = .idle result) ∧
      s' = {s with proc := goto s.proc i (.read n)}) ∨
    (∃ k n rest, m = .go ∧ (s.proc i).pc = .write k n rest ∧ (s.proc i).chan = none ∧ s' = pipewrite i k n rest s) ∨
    (∃ n, m = .go ∧ (s.proc i).pc = .read n ∧ (s.proc i).chan = none ∧ s' = piperead i n s) ∨
    (m = .close true ∧ (∀ j, (s.proc j).pc.writing = false) ∧ s' = pipeclose true s) ∨
    (m = .close false ∧ (∀ j, (s.proc j).pc.reading = false) ∧ s' = pipeclose false s) ∨
    (m = .kill ∧ s' = {s with proc := kill s.proc i}) := by
  unfold step at stepped
  dsimp only at stepped
  split at stepped
  case h_1 result idle =>
    split_ifs at stepped with opened
    exact .inl ⟨_,rfl,opened,⟨_,idle⟩,(Option.some.inj stepped).symm⟩
  case h_2 result idle =>
    split_ifs at stepped with opened
    exact .inr (.inl ⟨_,rfl,opened,⟨_,idle⟩,(Option.some.inj stepped).symm⟩)
  case h_3 here =>
    split_ifs at stepped with awake
    exact .inr (.inr (.inl ⟨_,_,_,rfl,here,awake,(Option.some.inj stepped).symm⟩))
  case h_4 here =>
    split_ifs at stepped with awake
    exact .inr (.inr (.inr (.inl ⟨_,rfl,here,awake,(Option.some.inj stepped).symm⟩)))
  case h_5 =>
    split_ifs at stepped with last
    exact .inr (.inr (.inr (.inr (.inl ⟨rfl,last.2,(Option.some.inj stepped).symm⟩))))
  case h_6 =>
    split_ifs at stepped with last
    exact .inr (.inr (.inr (.inr (.inr (.inl ⟨rfl,last.2,(Option.some.inj stepped).symm⟩)))))
  case h_7 => exact .inr (.inr (.inr (.inr (.inr (.inr ⟨rfl,(Option.some.inj stepped).symm⟩)))))
  case h_8 => cases stepped

omit [DecidableEq ι] in
theorem pipeclose_write (s : State ι) : ∃ freed, pipeclose true s =
    {s with pipe := {s.pipe with writeopen := false}, freed := freed, proc := wakeup s.proc .nread} := by
  simp only [pipeclose,if_true]
  split_ifs
  · exact ⟨true,rfl⟩
  · exact ⟨s.freed,rfl⟩

omit [DecidableEq ι] in
theorem pipeclose_read (s : State ι) : ∃ freed, pipeclose false s =
    {s with pipe := {s.pipe with readopen := false}, freed := freed, proc := wakeup s.proc .nwrite} := by
  simp only [pipeclose,Bool.false_eq_true,if_false]
  split_ifs
  · exact ⟨true,rfl⟩
  · exact ⟨s.freed,rfl⟩

omit [DecidableEq ι] in
theorem pipeclose_fifo (fifo : Fifo s) (writable : Bool) : Fifo (pipeclose writable s) := by
  have woken (chan : Chan) : Fifo {s with proc := wakeup s.proc chan} :=
    fifo.quiet fun j k n rest here => by rwa [wakeup_pc] at here
  cases writable with
  | false =>
    obtain ⟨freed,closed⟩ := pipeclose_read s
    have moved := woken .nwrite
    rw [closed]
    exact ⟨moved.bound,moved.stream,moved.order,moved.left,moved.alone,moved.known⟩
  | true =>
    obtain ⟨freed,closed⟩ := pipeclose_write s
    have moved := woken .nread
    rw [closed]
    exact ⟨moved.bound,moved.stream,moved.order,moved.left,moved.alone,moved.known⟩

theorem begin_fifo (fifo : Fifo s) (i : ι) (bytes : List UInt8) :
    Fifo {s with calls := s.calls ++ [bytes], proc := goto s.proc i (.write s.calls.length bytes.length bytes)} := by
  have grown {k : Nat} {old : List UInt8} (call : s.calls[k]? = some old) : (s.calls ++ [bytes])[k]? = some old := by
    rw [List.getElem?_append_left (List.getElem?_eq_some_iff.mp call).1]
    exact call
  have fresh (j : ι) (n : Nat) (rest : List UInt8) (there : (s.proc j).pc = .write s.calls.length n rest) : False :=
    absurd (List.getElem?_eq_some_iff.mp (fifo.left j _ n rest there)).1 (Nat.lt_irrefl _)
  constructor
  · exact fifo.bound
  · exact fifo.stream
  · intro k old call
    by_cases last : k < s.calls.length
    · rw [List.getElem?_append_left last] at call
      exact fifo.order k old call
    · have none : s.written k = [] := fifo.known k (by omega)
      exact ⟨old,by rw [State.written] at *; rw [none]; rfl⟩
  · intro j k n rest there
    rw [goto_pc] at there
    split_ifs at there with here
    · cases there
      have none : s.written s.calls.length = [] := fifo.known _ le_rfl
      change (s.calls ++ [bytes])[s.calls.length]? = some (s.written s.calls.length ++ bytes)
      rw [none]
      simp
    · exact grown (fifo.left j k n rest there)
  · intro j j' k n n' rest rest' there there'
    rw [goto_pc] at there there'
    by_cases here : j = i
    · rw [if_pos here] at there
      cases there
      by_cases here' : j' = i
      · rw [here,here']
      · rw [if_neg here'] at there'
        exact (fresh j' n' rest' there').elim
    · rw [if_neg here] at there
      by_cases here' : j' = i
      · rw [if_pos here'] at there'
        cases there'
        exact (fresh j n rest there).elim
      · rw [if_neg here'] at there'
        exact fifo.alone j j' k n n' rest rest' there there'
  · intro k beyond
    simp only [List.length_append,List.length_singleton] at beyond
    exact fifo.known k (by omega)

theorem step_fifo [Fintype ι] (turn : ι × Move) (fifo : Fifo s) (stepped : step s turn = some s') : Fifo s' := by
  obtain ⟨bytes,-,-,-,rfl⟩ | ⟨n,-,-,-,rfl⟩ | ⟨k,n,rest,-,here,-,rfl⟩ | ⟨n,-,-,-,rfl⟩ | ⟨-,-,rfl⟩ | ⟨-,-,rfl⟩ | ⟨-,rfl⟩ :=
    step_cases stepped
  · exact begin_fifo fifo _ bytes
  · refine fifo.quiet fun j k m more there => ?_
    rw [goto_pc] at there
    split_ifs at there
    exact there
  · refine pipewrite_fifo (fifo.quiet fun j k' m more there => ?_)
    rw [goto_pc] at there
    split_ifs at there with same
    · rw [same,here,there]
    · exact there
  · exact piperead_fifo fifo _ n
  · exact pipeclose_fifo fifo true
  · exact pipeclose_fifo fifo false
  · exact fifo.quiet fun j k m more there => by rwa [kill_pc] at there

theorem piperead_zero {i : ι} {n : Nat} (positive : 0 < n) (reads : (s.proc i).pc = .read n)
    (zero : ((piperead i n s).proc i).pc = .idle 0) :
    (piperead i n s).pipe.nread = (piperead i n s).pipe.nwrite ∧ (piperead i n s).pipe.writeopen = false := by
  obtain ⟨n,rfl⟩ := Nat.exists_eq_succ_of_ne_zero positive.ne'
  rw [piperead] at *
  split_ifs at * with empty killed
  · simp [goto_pc] at zero
  · simp [sleep_pc,reads] at zero
  · simp only [goto_pc,if_true] at zero
    rw [copy] at *
    split_ifs at * with none
    · exact ⟨none,by simpa [none] using empty⟩
    · simp at zero
      omega

end

/-- A pipe is a bounded queue of bytes. -/
theorem pipe_fifo {ι : Type} [DecidableEq ι] [Fintype ι] (s t : State ι) (turns : List (ι × Move)) (initial : Initial s)
    (ran : schedule step turns s = some t) :
    (t.pipe.nwrite - t.pipe.nread).toNat ≤ 512 ∧ t.delivered <+: t.stored.map Prod.snd ∧
    (∀ k bytes, t.calls[k]? = some bytes → t.written k <+: bytes) ∧
    ∀ i n u, 0 < n → (t.proc i).pc = .read n → step t (i,.go) = some u → (u.proc i).pc = .idle 0 →
      u.pipe.nread = u.pipe.nwrite ∧ u.pipe.writeopen = false := by
  have fifo : Fifo t := schedule_invariant (fun _ turn _ => step_fifo turn) initial.fifo ran
  refine ⟨fifo.bound,⟨_,fifo.stream.symm⟩,fifo.order,fun i n u positive reads stepped zero => ?_⟩
  obtain rfl : u = piperead i n t := by
    obtain ⟨_,⟨⟩,_⟩ | ⟨_,⟨⟩,_⟩ | ⟨_,_,_,_,other,_⟩ | ⟨n',_,here,_,rfl⟩ | ⟨⟨⟩,_⟩ | ⟨⟨⟩,_⟩ | ⟨⟨⟩,_⟩ := step_cases stepped
    · rw [reads] at other
      cases other
    · rw [reads] at here
      cases here
      rfl
  exact piperead_zero positive reads zero

/-- A new pipe and two processes. -/
def boot : State (Fin 2) where
  pipe := ⟨fun _ => 0,0,0,true,true⟩
  freed := false
  proc _ := ⟨.idle 0,none,false⟩
  calls := []
  stored := []
  delivered := []

theorem boot_initial : Initial boot := ⟨rfl,rfl,rfl,rfl,fun _ => rfl,fun _ => ⟨0,rfl⟩,rfl,rfl,rfl⟩

theorem pipe_fifo_boot : ∃ t, schedule step [(0,.write [7,8]),(0,.go),(1,.read 1),(1,.go),(1,.read 4),(1,.go)] boot = some t ∧
    t.delivered = [7,8] ∧ t.delivered <+: t.stored.map Prod.snd := by
  have run : (schedule step [(0,.write [7,8]),(0,.go),(1,.read 1),(1,.go),(1,.read 4),(1,.go)] boot).map State.delivered =
      some [7,8] := by decide +kernel
  obtain ⟨t,ran,seen⟩ := Option.map_eq_some_iff.mp run
  exact ⟨t,ran,seen,(pipe_fifo boot t _ boot_initial ran).2.1⟩

end Xv6Ext2.Pipes
