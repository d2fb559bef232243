import Xv6Ext2.Lib.Schedule
import Xv6Ext2.Lib.Window

/-! The input of the console: `consoleintr` edits and commits lines in a ring of 128 bytes, from which any processes read. It refines
an editor that has the bytes in lists. What is done with `cons.lock` held is one step. -/
namespace Xv6Ext2.Console
open Lib Function

/-- The locals of `consoleread`; `dst` is what has been copied. -/
structure Call where
  target : Nat
  n : Nat
  dst : List UInt8

/-- Input of type `σ`: what the cases of `consoleintr` do to it, and whether it calls `wakeup`; what a call of `consoleread` has copied,
and the call if it has to wait. -/
structure Device (σ : Type) where
  kill : σ → σ
  back : σ → σ
  store : σ → UInt8 → σ × Bool
  read : σ → Call → σ × List UInt8 × Option Call

structure Proc where
  call : Option Call
  asleep : Bool
  killed : Bool
  result : Option (List UInt8)

structure State (σ ι : Type) where
  input : σ
  proc : ι → Proc

inductive Event (ι : Type) where
  | intr (chars : List UInt8)
  | read (i : ι) (n : Nat)
  | go (i : ι)
  | kill (i : ι)

section

variable {σ ι : Type} (d : Device σ)

/-- The `switch` of `consoleintr`. -/
def Device.key (input : σ) (c : UInt8) : σ × Bool :=
  if c = 16 ∨ c = 0 then (input,false)
  else if c = 21 then (d.kill input,false)
  else if c = 8 ∨ c = 127 then (d.back input,false)
  else d.store input (if c = 13 then 10 else c)

def typed (s : State σ ι) (c : UInt8) : State σ ι :=
  ⟨(d.key s.input c).1,if (d.key s.input c).2 then fun i => {s.proc i with asleep := false} else s.proc⟩

variable [DecidableEq ι]

def State.set (s : State σ ι) (i : ι) (p : Proc) : State σ ι := {s with proc := update s.proc i p}

/-- The result `none` is -1. -/
def consoleread (s : State σ ι) (i : ι) (c : Call) : State σ ι :=
  let done := d.read s.input c
  let s := {s with input := done.1}
  match done.2.2 with
  | none => s.set i {s.proc i with call := none, result := some done.2.1}
  | some c =>
    if (s.proc i).killed then s.set i {s.proc i with call := none, result := none}
    else s.set i {s.proc i with call := some c, asleep := true}

def step (s : State σ ι) : Event ι → Option (State σ ι)
  | .intr chars => some (chars.foldl (typed d) s)
  | .read i n => if (s.proc i).call.isNone then some (s.set i {s.proc i with call := some ⟨n,n,[]⟩}) else none
  | .go i => if (s.proc i).asleep then none else (s.proc i).call.map (consoleread d s i)
  | .kill i => some (s.set i {s.proc i with killed := true, asleep := false})

def start (input : σ) : State σ ι := ⟨input,fun _ => ⟨none,false,false,none⟩⟩

end

structure Input where
  buf : Nat → UInt8
  r : UInt32
  w : UInt32
  e : UInt32

namespace Input

/-- The loop of `C('U')`, which ends after at most `e - w` rounds. -/
def killLine (i : Input) : Nat → Input
  | 0 => i
  | k + 1 => if i.e ≠ i.w ∧ i.buf ((i.e - 1).toNat % 128) ≠ 10 then killLine {i with e := i.e - 1} k else i

def store (i : Input) (c : UInt8) : Input × Bool :=
  if i.e - i.r < 128 then
    let i := {i with buf := update i.buf (i.e.toNat % 128) c, e := i.e + 1}
    if c = 10 ∨ c = 4 ∨ i.e = i.r + 128 then ({i with w := i.e},true) else (i,false)
  else (i,false)

def readLoop (i : Input) (target : Nat) : Nat → List UInt8 → Input × List UInt8 × Option Call
  | 0, dst => (i,dst,none)
  | n + 1, dst =>
    if i.r = i.w then (i,dst,some ⟨target,n + 1,dst⟩)
    else
      let c := i.buf (i.r.toNat % 128)
      let next := {i with r := i.r + 1}
      if c = 4 then (if n + 1 < target then {next with r := next.r - 1} else next,dst,none)
      else if c = 10 then (next,dst ++ [c],none)
      else readLoop next target n (dst ++ [c])

end Input

def console : Device Input where
  kill i := i.killLine (i.e - i.w).toNat
  back i := if i.e ≠ i.w then {i with e := i.e - 1} else i
  store := Input.store
  read i c := i.readLoop c.target c.n c.dst

/-- The bytes that wait for a reader, and the line that can still be edited. -/
structure Lines where
  ready : List UInt8
  line : List UInt8

namespace Lines

def store (l : Lines) (c : UInt8) : Lines × Bool :=
  let line := l.line ++ [c]
  if (l.ready ++ l.line).length < 128 then
    if c = 10 ∨ c = 4 ∨ (l.ready ++ line).length = 128 then (⟨l.ready ++ line,[]⟩,true) else (⟨l.ready,line⟩,false)
  else (l,false)

/-- A call ends behind a newline. At a ^D it ends too, and takes it if it has nothing else to return. -/
def read (target : Nat) : Nat → List UInt8 → List UInt8 → List UInt8 × List UInt8 × Option Call
  | 0, dst, ready => (ready,dst,none)
  | n + 1, dst, [] => ([],dst,some ⟨target,n + 1,dst⟩)
  | n + 1, dst, c :: ready =>
    if c = 4 then (if dst = [] then ready else c :: ready,dst,none)
    else if c = 10 then (ready,dst ++ [c],none)
    else read target n (dst ++ [c]) ready

end Lines

def editor : Device Lines where
  kill l := {l with line := []}
  back l := {l with line := l.line.dropLast}
  store := Lines.store
  read l c := let done := Lines.read c.target c.n c.dst l.ready; ({l with ready := done.1},done.2)

structure Shows (i : Input) (l : Lines) : Prop where
  bytes : window 128 i.buf i.r i.e = l.ready ++ l.line
  ready : l.ready.length = (i.w - i.r).toNat
  line : l.line.length = (i.e - i.w).toNat
  full : (i.e - i.r).toNat ≤ 128
  fresh : 10 ∉ l.line

section

variable {i : Input} {l : Lines}

theorem Shows.count (shows : Shows i l) : (l.ready ++ l.line).length = (i.e - i.r).toNat := by rw [← shows.bytes,length_window]

theorem Shows.idle (shows : Shows i l) (none : l.ready = []) : i.r = i.w := by
  by_contra apart
  have ready := shows.ready
  rw [none] at ready
  exact (toNat_sub_pos apart).ne ready

/-- The last byte of the line is taken back. -/
theorem Shows.erase (shows : Shows i l) (more : i.e ≠ i.w) :
    Shows {i with e := i.e - 1} {l with line := l.line.dropLast} ∧ i.buf ((i.e - 1).toNat % 128) ≠ 10 := by
  obtain ⟨bytes,ready,line,full,fresh⟩ := shows
  have fewer := toNat_pred_sub more.symm
  obtain empty | ⟨front,b,last⟩ := List.eq_nil_or_concat' l.line
  · rw [empty,List.length_nil] at line
    omega
  have other : i.e ≠ i.r := fun same => by
    rw [same,window_self,last] at bytes
    simp at bytes
  have next : i.e - 1 + 1 = i.e := by grind
  have less := toNat_pred_sub other.symm
  have split : window 128 i.buf i.r (i.e - 1 + 1) = _ := window_succ (n := 128) (by decide) (by omega)
  rw [next,bytes,last,← List.append_assoc] at split
  obtain ⟨before,same⟩ := List.append_inj' split rfl
  rw [last] at line fresh
  refine ⟨⟨?_,ready,?_,?_,?_⟩,fun newline => fresh ?_⟩
  · rw [last,List.dropLast_concat]
    exact before.symm
  · rw [last,List.dropLast_concat]
    rw [List.length_append] at line
    exact Nat.succ.inj (line.trans fewer)
  · change (i.e - 1 - i.r).toNat ≤ 128
    omega
  · rw [last,List.dropLast_concat]
    exact fun member => fresh (List.mem_append_left _ member)
  · rw [← newline,← List.head_eq_of_cons_eq same]
    simp

theorem Shows.killLine {k : Nat} (shows : Shows i l) (rounds : (i.e - i.w).toNat = k) : Shows (i.killLine k) {l with line := []} := by
  induction k generalizing i l with
  | zero =>
    have empty : l.line = [] := List.length_eq_zero_iff.mp (shows.line.trans rounds)
    rw [← empty]
    exact shows
  | succ k ih =>
    have more : i.e ≠ i.w := fun same => by simp [same] at rounds
    obtain ⟨shows,letter⟩ := shows.erase more
    rw [Input.killLine,if_pos ⟨more,letter⟩]
    exact ih (l := {l with line := l.line.dropLast}) shows (Nat.succ.inj ((toNat_pred_sub more.symm).symm.trans rounds))

/-- Both sides call `wakeup` at the same time, and until they do nothing new is ready. -/
theorem Shows.store (shows : Shows i l) (c : UInt8) :
    Shows (i.store c).1 (l.store c).1 ∧ (i.store c).2 = (l.store c).2 ∧ ((i.store c).2 = false → (l.store c).1.ready = l.ready) := by
  have count := shows.count
  rw [Input.store,Lines.store,count]
  by_cases room : (i.e - i.r).toNat < 128
  · obtain ⟨bytes,ready,line,full,fresh⟩ := shows
    have longer : (i.e + 1 - i.r).toNat = (i.e - i.r).toNat + 1 := toNat_sub_succ (by omega)
    have stored : window 128 (update i.buf (i.e.toNat % 128) c) i.r (i.e + 1) = l.ready ++ (l.line ++ [c]) := by
      rw [window_put (n := 128) (by decide) (by decide) room,bytes,List.append_assoc]
    have length : (l.ready ++ (l.line ++ [c])).length = (i.e + 1 - i.r).toNat := by rw [← stored,length_window]
    have filled : (l.ready ++ (l.line ++ [c])).length = 128 ↔ i.e + 1 = i.r + 128 := by
      rw [length,← sub_eq_iff_eq_add']
      exact ⟨fun same => UInt32.toNat_inj.mp same,fun same => by rw [same]; rfl⟩
    rw [List.length_append] at count
    rw [if_pos room,if_pos (by exact room)]
    dsimp only
    by_cases commits : c = 10 ∨ c = 4 ∨ i.e + 1 = i.r + 128
    · rw [if_pos commits,if_pos (by rwa [filled])]
      exact ⟨⟨by rw [List.append_nil]; exact stored,length,by simp,longer.trans_le room,List.not_mem_nil⟩,rfl,fun never => by cases never⟩
    · rw [if_neg commits,if_neg (by rwa [filled])]
      refine ⟨⟨stored,ready,?_,longer.trans_le room,?_⟩,rfl,fun _ => rfl⟩
      · rw [List.length_append,line]
        exact (toNat_sub_succ (by omega)).symm
      · rw [List.mem_append,List.mem_singleton]
        rintro (old | rfl)
        · exact fresh old
        · exact commits (.inl rfl)
  · rw [if_neg room,if_neg (by exact room)]
    exact ⟨shows,rfl,fun _ => rfl⟩

theorem Shows.key (shows : Shows i l) (c : UInt8) : Shows (console.key i c).1 (editor.key l c).1 ∧
    (console.key i c).2 = (editor.key l c).2 ∧ ((console.key i c).2 = false → (editor.key l c).1.ready = l.ready) := by
  rw [Device.key,Device.key]
  split_ifs
  · exact ⟨shows,rfl,fun _ => rfl⟩
  · exact ⟨shows.killLine rfl,rfl,fun _ => rfl⟩
  · refine ⟨?_,rfl,fun _ => rfl⟩
    dsimp only [console,editor]
    split_ifs with more
    · exact (shows.erase more).1
    · have line := shows.line
      rw [not_not.mp more,sub_self] at line
      have empty := List.length_eq_zero_iff.mp line
      rw [empty,List.dropLast_nil,← empty]
      exact shows
  · exact shows.store 10
  · exact shows.store c

theorem Shows.take {c : UInt8} {rest : List UInt8} (shows : Shows i l) (waits : l.ready = c :: rest) :
    i.r ≠ i.w ∧ i.buf (i.r.toNat % 128) = c ∧ Shows {i with r := i.r + 1} {l with ready := rest} := by
  obtain ⟨bytes,ready,line,full,fresh⟩ := shows
  have apart : i.r ≠ i.w := fun same => by simp [waits,same] at ready
  have other : i.r ≠ i.e := fun same => by simp [waits,same] at bytes
  rw [window_take (n := 128) (by decide) other,waits,List.cons_append] at bytes
  rw [waits,toNat_succ_sub apart] at ready
  rw [toNat_succ_sub other] at full
  obtain ⟨first,others⟩ := List.cons.inj bytes
  exact ⟨apart,first,others,Nat.succ.inj ready,line,(Nat.le_succ _).trans full,fresh⟩

theorem Shows.read (shows : Shows i l) {target n : Nat} {dst : List UInt8} (counts : target = n + dst.length) :
    Shows (i.readLoop target n dst).1 {l with ready := (Lines.read target n dst l.ready).1} ∧
      (i.readLoop target n dst).2 = (Lines.read target n dst l.ready).2 := by
  induction n generalizing i l dst with
  | zero => exact ⟨shows,rfl⟩
  | succ n ih =>
    rw [Input.readLoop]
    cases waits : l.ready with
    | nil =>
      rw [if_pos (shows.idle waits)]
      refine ⟨?_,rfl⟩
      rw [Lines.read,← waits]
      exact shows
    | cons c rest =>
      obtain ⟨apart,first,next⟩ := shows.take waits
      rw [if_neg apart,Lines.read]
      dsimp only
      rw [first]
      by_cases eof : c = 4
      · rw [if_pos eof,if_pos eof]
        by_cases none : dst = []
        · rw [if_pos none,if_neg (by simp [counts,none])]
          exact ⟨next,rfl⟩
        · have copied := List.length_pos_iff.mpr none
          rw [if_neg none,if_pos (by omega),add_sub_cancel_right,← waits]
          exact ⟨shows,rfl⟩
      rw [if_neg eof,if_neg eof]
      by_cases newline : c = 10
      · rw [if_pos newline,if_pos newline]
        exact ⟨next,rfl⟩
      · rw [if_neg newline,if_neg newline]
        exact ih (l := {l with ready := rest}) next (by rw [List.length_append,List.length_singleton]; omega)

theorem Lines.read_nil (target n : Nat) (dst : List UInt8) : (Lines.read target n dst []).1 = [] := by cases n <;> rfl

theorem Lines.read_waits {target n : Nat} {dst ready : List UInt8} {c : Call} (counts : target = n + dst.length)
    (waits : (Lines.read target n dst ready).2.2 = some c) :
    (Lines.read target n dst ready).1 = [] ∧ c.target = c.n + c.dst.length := by
  induction n generalizing ready dst with
  | zero => cases waits
  | succ n ih =>
    cases ready with
    | nil =>
      obtain rfl : _ = c := Option.some.inj waits
      exact ⟨rfl,counts⟩
    | cons b ready =>
      rw [Lines.read] at waits ⊢
      split_ifs at waits ⊢
      exact ih (by rw [List.length_append,List.length_singleton]; omega) waits

end

structure Matches {ι : Type} (s : State Input ι) (t : State Lines ι) : Prop where
  shows : Shows s.input t.input
  proc : t.proc = s.proc
  counts : ∀ i c, (s.proc i).call = some c → c.target = c.n + c.dst.length
  asleep : ∀ i, (s.proc i).asleep = true → t.input.ready = []

section

variable {ι : Type} {s s' : State Input ι} {t : State Lines ι}

theorem Matches.typed (same : Matches s t) (c : UInt8) : Matches (typed console s c) (typed editor t c) := by
  obtain ⟨shows,proc,counts,asleep⟩ := same
  obtain ⟨shows,wakes,quiet⟩ := shows.key c
  rw [Console.typed,Console.typed,proc]
  rw [← wakes]
  cases woken : (console.key s.input c).2 with
  | true => exact ⟨shows,rfl,counts,fun _ never => by cases never⟩
  | false => exact ⟨shows,rfl,counts,fun i sleeps => (quiet woken).trans (asleep i sleeps)⟩

theorem Matches.intr (same : Matches s t) (chars : List UInt8) :
    Matches (chars.foldl (Console.typed console) s) (chars.foldl (Console.typed editor) t) := by
  induction chars generalizing s t with
  | nil => exact same
  | cons c chars ih => exact ih (same.typed c)

variable [DecidableEq ι]

theorem Matches.set (same : Matches s t) {i : ι} {p : Proc} (counts : ∀ c, p.call = some c → c.target = c.n + c.dst.length)
    (asleep : p.asleep = true → t.input.ready = []) : Matches (s.set i p) (t.set i p) := by
  refine ⟨same.shows,by rw [State.set,State.set,same.proc],fun j c => ?_,fun j => ?_⟩ <;>
    simp only [State.set,update_apply] <;> split_ifs
  · exact counts c
  · exact same.counts j c
  · exact asleep
  · exact same.asleep j

theorem Matches.consoleread (same : Matches s t) {i : ι} {c : Call} (call : (s.proc i).call = some c) (awake : (s.proc i).asleep = false) :
    Matches (Console.consoleread console s i c) (Console.consoleread editor t i c) := by
  have counts := same.counts i c call
  obtain ⟨shows,results⟩ := same.shows.read counts
  have inner : Matches ⟨(console.read s.input c).1,s.proc⟩ ⟨(editor.read t.input c).1,s.proc⟩ := by
    refine ⟨shows,rfl,same.counts,fun j sleeps => ?_⟩
    change (Lines.read _ _ _ t.input.ready).1 = []
    rw [same.asleep j sleeps,Lines.read_nil]
  change (console.read s.input c).2 = (editor.read t.input c).2 at results
  rw [Console.consoleread,Console.consoleread,same.proc,← results]
  dsimp only
  cases waits : (console.read s.input c).2.2 with
  | none =>
    refine inner.set (fun _ never => ?_) fun sleeps => ?_
    · cases never
    · cases awake.symm.trans sleeps
  | some c' =>
    obtain ⟨idle,counted⟩ := Lines.read_waits counts (results ▸ waits)
    dsimp only
    split_ifs
    · refine inner.set (fun _ never => ?_) fun sleeps => ?_
      · cases never
      · cases awake.symm.trans sleeps
    · refine inner.set (fun _ here => ?_) fun _ => idle
      obtain rfl := Option.some.inj here
      exact counted

theorem Matches.step (same : Matches s t) {e : Event ι} (stepped : step console s e = some s') :
    ∃ t', Console.step editor t e = some t' ∧ Matches s' t' := by
  cases e with
  | intr chars =>
    obtain rfl := Option.some.inj stepped
    exact ⟨_,rfl,same.intr chars⟩
  | read i n =>
    rw [Console.step] at stepped ⊢
    rw [same.proc]
    split_ifs at stepped ⊢
    obtain rfl := Option.some.inj stepped
    exact ⟨_,rfl,same.set (fun c here => by rw [← Option.some.inj here]; rfl) (same.asleep i)⟩
  | go i =>
    rw [Console.step] at stepped ⊢
    rw [same.proc]
    split_ifs at stepped ⊢ with awake
    obtain ⟨c,call,rfl⟩ := Option.map_eq_some_iff.mp stepped
    rw [call]
    exact ⟨_,rfl,same.consoleread call (Bool.not_eq_true _ ▸ awake)⟩
  | kill i =>
    obtain rfl := Option.some.inj stepped
    rw [Console.step,same.proc]
    exact ⟨_,rfl,same.set (same.counts i) fun never => by cases never⟩

end

/-- Whatever is typed and read, by whom and in which order, the calls return what they return on the editor, whose bytes are those of
the ring; the ring has at most 128 bytes, also when the indexes wrap; and a reader is asleep only while there is nothing to read. -/
theorem console_refines_editor {ι : Type} [DecidableEq ι] {events : List (Event ι)} {s : State Input ι}
    (ran : schedule (step console) events (start ⟨fun _ => 0,0,0,0⟩) = some s) :
    ∃ t, schedule (step editor) events (start ⟨[],[]⟩) = some t ∧ t.proc = s.proc ∧ Shows s.input t.input ∧
      ∀ i, (s.proc i).asleep = true → s.input.r = s.input.w := by
  have empty : Shows ⟨fun _ => 0,0,0,0⟩ ⟨[],[]⟩ := ⟨window_self _ _ _,rfl,rfl,by decide,List.not_mem_nil⟩
  have first : Matches (start ⟨fun _ => 0,0,0,0⟩ : State Input ι) (start ⟨[],[]⟩) :=
    ⟨empty,rfl,fun _ _ never => (by cases never),fun _ never => (by cases never)⟩
  obtain ⟨t,runs,same⟩ := schedule_simulates (fun _ _ _ _ same stepped => same.step stepped) first ran
  exact ⟨t,runs,same.proc,same.shows,fun i sleeps => same.shows.idle (same.asleep i sleeps)⟩

/-- A reader waits for the line `ac`, in which a byte was taken back; then a ^D is typed. -/
private def session : List (Event Bool) :=
  [.read true 9,.go true,.intr [97,98,8,99],.intr [13,4],.go true,.read false 9,.go false]

theorem console_refines_editor_session : ∃ s t, schedule (step console) session (start ⟨fun _ => 0,0,0,0⟩) = some s ∧
    schedule (step editor) session (start ⟨[],[]⟩) = some t ∧ (t.proc true).result = some [97,99,10] ∧ (t.proc false).result = some [] := by
  have returns : ((schedule (step console) session (start ⟨fun _ => 0,0,0,0⟩)).map fun s => ((s.proc true).result,(s.proc false).result)) =
      some (some [97,99,10],some []) := by decide +kernel
  obtain ⟨s,ran,seen⟩ := Option.map_eq_some_iff.mp returns
  obtain ⟨t,runs,same,-⟩ := console_refines_editor ran
  rw [Prod.mk.injEq,← same] at seen
  exact ⟨s,t,ran,runs,seen⟩

end Xv6Ext2.Console
