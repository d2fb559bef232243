import Xv6Ext2.Bio
import Xv6Ext2.Lib.Writes

/-! The redo log of log.c as a machine whose steps are the single-block disk writes of `commit`
and `recover_from_log` and the critical sections of `begin_op`, `log_write` and `end_op`.
`log_write` makes two steps: its tests run before `acquire(&log.lock)`. -/
namespace Xv6Ext2
open Lib Bio

/-- `struct log`; `lh` is `log.lh.block[0..n-1]`. -/
structure Log where
  start : Blockno
  size : Nat
  outstanding : Nat
  committing : Bool
  lh : List Blockno

namespace Log

def maxopblocks : Nat := 10

def logsize : Nat := maxopblocks * 3

def logBlock (start : Blockno) (tail : Nat) : Blockno := start + UInt32.ofNat (tail + 1)

/-- `hb->n = log.lh.n` and the loop over `hb->block[i]`, in the bytes of the header buffer. -/
def storeHeader (lh : List Blockno) (data : Block) : Block :=
  lh.zipIdx.foldl (fun data entry => data.setU32 (4 * (entry.2 + 1)) entry.1)
    (data.setU32 0 (UInt32.ofNat lh.length))

/-- `lh->n` is a signed count: a negative one reads no entry. -/
def headerCount (data : Block) : Nat :=
  if (u32 data.byte 0).toNat < 2^31 then (u32 data.byte 0).toNat else 0

def loadHeader (data : Block) : List Blockno :=
  (List.range (headerCount data)).map (fun i => u32 data.byte (4 * (i + 1)))

section Programs

variable (recycle : Dev → Blockno → Bool)

def bread (b : Blockno) : K Unit := do
  bget b
  Bio.bread recycle b

def readHead (start : Blockno) : K (List Blockno) := do
  bread recycle start
  let data ← bdata start
  brelse start
  pure (loadHeader data)

def writeHead (start : Blockno) (lh : List Blockno) : K Unit := do
  bread recycle start
  let data ← bdata start
  bset start (storeHeader lh data)
  bwrite start
  brelse start

/-- The common body of the loops of `write_log` and `install_trans`: read the log block and the
home block, copy one to the other and write it. -/
def copyBlock (logged home dst src : Blockno) : K Unit := do
  bread recycle logged
  bread recycle home
  let data ← bdata src
  bset dst data
  bwrite dst
  brelse src
  brelse dst

def writeLog (start : Blockno) (lh : List Blockno) (tail : Nat) : K Unit :=
  match lh[tail]? with
  | some home => copyBlock recycle (logBlock start tail) home (logBlock start tail) home
  | none => fault .outOfBounds

def installTrans (start : Blockno) (lh : List Blockno) (tail : Nat) : K Unit :=
  match lh[tail]? with
  | some home => copyBlock recycle (logBlock start tail) home home (logBlock start tail)
  | none => fault .outOfBounds

/-- What the caller of `log_write` does around it: `bread`, modify, pin, `brelse`. -/
def modify (b : Blockno) (data : Block) : K Unit := do
  bread recycle b
  bset b data
  bpin b
  brelse b

end Programs

inductive Phase where
  | running
  | writeLog (tail : Nat)
  | writeHead
  | install (tail : Nat)
  | clear
  | readHead
  | reinstall (tail : Nat)
  | reclear
  deriving DecidableEq

/-- `ops` lists the operations between `begin_op` and `end_op`, each with the `log_write` that has
passed its tests and waits for the lock, if any. -/
structure Machine where
  dev : Dev
  log : Log
  ops : List (Option (Blockno × Block))
  phase : Phase

inductive Event where
  | beginOp
  | check (op : Nat) (b : Blockno) (data : Block)
  | append (op : Nat)
  | endOp (op : Nat)
  | commit
  | crash
  | recover

def runOn {α : Type} (m : Machine) (program : K α) : Option (α × Machine) :=
  match program m.dev with
  | .ok (a,d) => some (a,{m with dev := d})
  | .error _ => none

def beginOp (m : Machine) : Option Machine :=
  if m.phase ≠ .running ∨ m.log.committing then none
  else if m.log.lh.length + (m.log.outstanding + 1) * maxopblocks > logsize then none
  else some {m with log := {m.log with outstanding := m.log.outstanding + 1}, ops := m.ops ++ [none]}

/-- The two tests of `log_write`, made before the lock is taken. -/
def logWriteCheck (m : Machine) (op : Nat) (b : Blockno) (data : Block) : Option Machine :=
  match m.ops[op]? with
  | some none =>
    if m.log.lh.length ≥ logsize ∨ m.log.lh.length + 1 ≥ m.log.size then none
    else if m.log.outstanding < 1 then none
    else some {m with ops := m.ops.set op (some (b,data))}
  | _ => none

/-- The critical section of `log_write`: absorb or append, then pin the buffer. -/
def logWriteAppend (recycle : Dev → Blockno → Bool) (m : Machine) (op : Nat) : Option Machine :=
  match m.ops[op]? with
  | some (some (b,data)) =>
    let lh := if b ∈ m.log.lh then m.log.lh else m.log.lh ++ [b]
    if lh.length > logsize then none
    else (runOn m (modify recycle b data)).map fun done =>
      {done.2 with log := {m.log with lh := lh}, ops := m.ops.set op none}
  | _ => none

def endOp (m : Machine) (op : Nat) : Option Machine :=
  match m.ops[op]? with
  | some none =>
    if m.log.committing then none
    else if m.log.outstanding - 1 = 0 ∧ m.log.lh ≠ [] then
      some {m with log := {m.log with outstanding := m.log.outstanding - 1, committing := true}
                   ops := m.ops.eraseIdx op
                   phase := .writeLog 0}
    else some {m with log := {m.log with outstanding := m.log.outstanding - 1}, ops := m.ops.eraseIdx op}
  | _ => none

def commit (recycle : Dev → Blockno → Bool) (m : Machine) : Option Machine :=
  let n := m.log.lh.length
  match m.phase with
  | .writeLog tail => (runOn m (writeLog recycle m.log.start m.log.lh tail)).map fun done =>
      {done.2 with phase := if tail + 1 < n then .writeLog (tail + 1) else .writeHead}
  | .writeHead => (runOn m (writeHead recycle m.log.start m.log.lh)).map fun done =>
      {done.2 with phase := .install 0}
  | .install tail => (runOn m (installTrans recycle m.log.start m.log.lh tail)).map fun done =>
      {done.2 with phase := if tail + 1 < n then .install (tail + 1) else .clear}
  | .clear => (runOn m (writeHead recycle m.log.start [])).map fun done =>
      {done.2 with log := {m.log with lh := [], committing := false}, phase := .running}
  | _ => none

/-- Only the disk survives; `initlog` then starts over with `recover_from_log`. -/
def crash (m : Machine) : Machine :=
  {dev := {m.dev with cache := fun _ => none, slots := []}
   log := {m.log with outstanding := 0, committing := false, lh := []}
   ops := []
   phase := .readHead}

/-- One step of `recover_from_log`: the header read, or one disk write. -/
def recover (recycle : Dev → Blockno → Bool) (m : Machine) : Option Machine :=
  match m.phase with
  | .readHead => (runOn m (readHead recycle m.log.start)).map fun done =>
      {done.2 with log := {m.log with lh := done.1}
                   phase := if 0 < done.1.length then .reinstall 0 else .reclear}
  | .reinstall tail => (runOn m (installTrans recycle m.log.start m.log.lh tail)).map fun done =>
      {done.2 with phase := if tail + 1 < m.log.lh.length then .reinstall (tail + 1) else .reclear}
  | .reclear => (runOn m (writeHead recycle m.log.start [])).map fun done =>
      {done.2 with log := {m.log with lh := []}, phase := .running}
  | _ => none

def step (recycle : Dev → Blockno → Bool) (m : Machine) : Event → Option Machine
  | .beginOp => beginOp m
  | .check op b data => logWriteCheck m op b data
  | .append op => logWriteAppend recycle m op
  | .endOp op => endOp m op
  | .commit => commit recycle m
  | .crash => some (crash m)
  | .recover => recover recycle m

/-- History of the transaction in progress: the disk at its start and its `log_write`s in order. -/
structure History where
  before : Blockno → Block
  writes : List (Blockno × Block)

def History.after (h : History) : Blockno → Block := applyWrites h.writes h.before

/-- A transaction ends when the header is cleared, by `commit` or by a completed recovery. -/
def History.next (h : History) (m : Machine) (e : Event) (m' : Machine) : History :=
  match e with
  | .append op => match m.ops[op]? with
    | some (some write) => {h with writes := h.writes ++ [write]}
    | _ => h
  | .commit | .recover => if m'.phase = .running then ⟨m'.dev.disk,[]⟩ else h
  | _ => h

def traced (recycle : Dev → Blockno → Bool) (s : Machine × History) (e : Event) :
    Option (Machine × History) :=
  (step recycle s.1 e).map fun m' => (m',s.2.next s.1 e m')

def run (recycle : Dev → Blockno → Bool) (events : List Event) (s : Machine × History) :
    Option (Machine × History) :=
  events.foldlM (traced recycle) s

def Area (start : Blockno) (size : Nat) (b : Blockno) : Prop := ∃ k < size, b = start + UInt32.ofNat k

instance (start : Blockno) (size : Nat) (b : Blockno) : Decidable (Area start size b) :=
  inferInstanceAs (Decidable (∃ k < size, b = start + UInt32.ofNat k))

/-- The machine at `initlog`, before `recover_from_log`. -/
def powerOn (disk : Blockno → Block) (start : Blockno) (size : Nat) : Machine :=
  ⟨cold disk,⟨start,size,0,false,[]⟩,[],.readHead⟩

end Log
end Xv6Ext2
