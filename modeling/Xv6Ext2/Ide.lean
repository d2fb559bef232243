import Xv6Ext2.Bio
import Xv6Ext2.Lib.Schedule

/-! The IDE driver: one queue of buffers for two channels. A controller has the registers that `idestart` fills
and the command it was last given; its interrupts, and others that no command caused, come at any time. Over
whole runs, which interrupt finishes which request. -/
namespace Xv6Ext2.Ide
open Lib Bio Function

inductive Channel where
  | primary
  | secondary
  deriving DecidableEq

/-- `portno` in `idestart` -/
def channel (dev : UInt32) : Channel := if dev = 1 then .primary else .secondary

/-- `portno` in `ideintr` -/
def line (flag : UInt32) : Channel := if flag = 0 then .primary else .secondary

def fssize : Nat := 1000

def sectorSize : Nat := 512

/-- `sector_per_block` -/
def sectorPerBlock : Nat := bsize / sectorSize

abbrev Sector := Bytes sectorSize

/-- The registers from `portno + 2` to `portno + 6`. -/
structure TaskFile where
  count : UInt8
  low : UInt8
  mid : UInt8
  high : UInt8
  device : UInt8
  deriving DecidableEq

/-- `sector` in `idestart` -/
def sector (blockno : UInt32) : Nat := (blockno * UInt32.ofNat sectorPerBlock).toNat

/-- The values that `idestart` puts out. -/
def taskFile (dev blockno : UInt32) : TaskFile :=
  let sector := sector blockno
  { count := UInt8.ofNat sectorPerBlock
    low := UInt8.ofNat (sector &&& 0xff)
    mid := UInt8.ofNat ((sector >>> 8) &&& 0xff)
    high := UInt8.ofNat ((sector >>> 16) &&& 0xff)
    device := UInt8.ofNat (0xe0 ||| ((dev.toNat &&& 1) <<< 4) ||| ((sector >>> 24) &&& 0x0f)) }

def TaskFile.drive (r : TaskFile) : Bool := r.device.toNat / 16 % 2 = 1

def TaskFile.lba (r : TaskFile) : Nat :=
  r.low.toNat + 2^8 * r.mid.toNat + 2^16 * r.high.toNat + 2^24 * (r.device.toNat % 16)

structure Command where
  registers : TaskFile
  write : Bool
  deriving DecidableEq

/-- `struct buf`, with B_VALID and B_DIRTY of its flags. -/
structure Buf where
  dev : UInt32
  blockno : UInt32
  valid : Bool
  dirty : Bool
  data : Block

/-- `raised` says of a channel that the interrupt for its last command is still to come. -/
structure State (ι : Type) where
  idequeue : List ι
  buf : ι → Buf
  command : Channel → Option Command
  raised : Channel → Bool
  drives : Channel → Bool → Nat → Sector
  havedisk1 : Bool
  havedisk2 : Bool
  panicked : Option String

def blockAt (sectors : Nat → Sector) (lba : Nat) : Block := fun i => (sectors (lba + i.val / sectorSize)).byte (i.val % sectorSize)

def storeAt (sectors : Nat → Sector) (lba : Nat) (data : Block) : Nat → Sector := fun n =>
  if lba ≤ n ∧ n < lba + sectorPerBlock then fun i => data.byte (sectorSize * (n - lba) + i.val) else sectors n

theorem blockAt_storeAt (sectors : Nat → Sector) (lba : Nat) (data : Block) : blockAt (storeAt sectors lba data) lba = data := by
  funext i
  have bound : i.val < 2048 := i.isLt
  have inside : lba ≤ lba + i.val / 512 ∧ lba + i.val / 512 < lba + sectorPerBlock := by
    have four : sectorPerBlock = 4 := rfl
    omega
  have place : 512 * (lba + i.val / 512 - lba) + i.val % 512 = i.val := by omega
  have sector : storeAt sectors lba data (lba + i.val / 512) = fun j => data.byte (512 * (lba + i.val / 512 - lba) + j.val) :=
    if_pos inside
  have short : i.val % 512 < sectorSize := Nat.mod_lt _ (by decide)
  calc blockAt (storeAt sectors lba data) lba i = (storeAt sectors lba data (lba + i.val / 512)).byte (i.val % 512) := rfl
    _ = data.byte (512 * (lba + i.val / 512 - lba) + i.val % 512) := by rw [sector]; exact dif_pos short
    _ = data i := by rw [place]; exact dif_pos i.isLt

theorem device_bits : ∀ x < 2, ∀ y < 16, (UInt8.ofNat (0xe0 ||| (x <<< 4) ||| y)).toNat = 224 + 16 * x + y := by decide

theorem taskFile_device (dev blockno : UInt32) :
    (taskFile dev blockno).device.toNat = 224 + 16 * (dev.toNat % 2) + sector blockno / 2^24 % 16 := by
  rw [← device_bits _ (Nat.mod_lt _ (by decide)) _ (Nat.mod_lt _ (by decide))]
  simp only [taskFile,Nat.shiftRight_eq_div_pow]
  rw [← Nat.and_two_pow_sub_one_eq_mod _ 1,← Nat.and_two_pow_sub_one_eq_mod _ 4]

theorem taskFile_drive (dev blockno : UInt32) : (taskFile dev blockno).drive = decide (dev.toNat % 2 = 1) := by
  simp only [TaskFile.drive,taskFile_device,decide_eq_decide]
  omega

theorem low_byte (n : Nat) : (UInt8.ofNat (n &&& 0xff)).toNat = n % 2^8 := by
  rw [Nat.and_two_pow_sub_one_eq_mod _ 8,UInt8.toNat_ofNat']
  omega

theorem taskFile_lba (dev blockno : UInt32) (small : blockno.toNat < 2^26) : (taskFile dev blockno).lba = sectorPerBlock * blockno.toNat := by
  have four : sectorPerBlock = 4 := rfl
  have exact_sector : sector blockno = 4 * blockno.toNat := by
    rw [sector,UInt32.toNat_mul,four]
    change blockno.toNat * 4 % 2^32 = _
    omega
  have low : (taskFile dev blockno).low.toNat = sector blockno % 2^8 := low_byte _
  have mid : (taskFile dev blockno).mid.toNat = sector blockno / 2^8 % 2^8 := by
    rw [← Nat.shiftRight_eq_div_pow]; exact low_byte _
  have high : (taskFile dev blockno).high.toNat = sector blockno / 2^16 % 2^8 := by
    rw [← Nat.shiftRight_eq_div_pow]; exact low_byte _
  rw [TaskFile.lba,low,mid,high,taskFile_device,exact_sector,four]
  omega

section

variable {ι : Type} [DecidableEq ι]

namespace State

def set (s : State ι) (b : ι) (buf : Buf) : State ι := {s with buf := update s.buf b buf}

def lower (s : State ι) (c : Channel) : State ι := {s with raised := update s.raised c false}

def append (s : State ι) (b : ι) : State ι := {s with idequeue := s.idequeue ++ [b]}

def panic (s : State ι) (message : String) : State ι := {s with panicked := some message}

def block (s : State ι) (dev blockno : UInt32) : Block :=
  blockAt (s.drives (channel dev) (dev.toNat % 2 = 1)) (sectorPerBlock * blockno.toNat)

end State

def request (buf : Buf) : Command := ⟨taskFile buf.dev buf.blockno,buf.dirty⟩

def idestart (s : State ι) (b : ι) : State ι :=
  let buf := s.buf b
  if buf.dev = 1 ∧ buf.blockno.toNat ≥ fssize then s.panic "incorrect blockno"
  else
    let c := channel buf.dev
    let cmd := request buf
    let s := {s with command := update s.command c (some cmd), raised := update s.raised c true}
    if buf.dirty then
      let r := cmd.registers
      let written := update (s.drives c) r.drive (storeAt (s.drives c r.drive) r.lba buf.data)
      {s with drives := update s.drives c written}
    else s

def insl (s : State ι) (c : Channel) (junk : Block) : Block :=
  match s.command c with
  | some ⟨r,false⟩ => blockAt (s.drives c r.drive) r.lba
  | _ => junk

/-- The request for `b` is taken off the queue. `error` is what `idewait` finds in the status register. -/
def finish (s : State ι) (c : Channel) (b : ι) (rest : List ι) (error : Bool) (junk : Block) : State ι :=
  let buf := s.buf b
  let data := if buf.dirty ∨ error then buf.data else insl s c junk
  State.set {s with idequeue := rest} b {buf with valid := true, dirty := false, data := data}

def ideintr (s : State ι) (flag : UInt32) (error : Bool) (junk : Block) : State ι :=
  let c := line flag
  let s := s.lower c
  match s.idequeue with
  | [] => s
  | b :: rest =>
    let s := finish s c b rest error junk
    match rest with
    | [] => s
    | next :: _ => idestart s next

def iderw (s : State ι) (b : ι) : State ι :=
  let buf := s.buf b
  if buf.valid ∧ ¬buf.dirty then s.panic "iderw: nothing to do"
  else if buf.dev ≠ 0 ∧ ¬s.havedisk1 then s.panic "iderw: ide disk 1 not present"
  else if buf.dev ≠ 0 ∧ ¬s.havedisk2 then s.panic "iderw: ide disk 2 not present"
  else
    -- Started at once if the queue was empty.
    if s.idequeue = [] then idestart (s.append b) b else s.append b

/-- A request, an interrupt, or what the buffer cache does to a buffer that is in no request: `bget` gives it
to another block, its holder changes the data or sets B_DIRTY. -/
inductive Move (ι : Type) where
  | iderw (b : ι)
  | ideintr (flag : UInt32) (error : Bool) (junk : Block)
  | bget (b : ι) (dev blockno : UInt32)
  | edit (b : ι) (data : Block)
  | mark (b : ι)

def step (s : State ι) (m : Move ι) : Option (State ι) :=
  if s.panicked ≠ none then none
  else match m with
    | .iderw b => if b ∈ s.idequeue then none else some (iderw s b)
    | .ideintr flag error junk => some (ideintr s flag error junk)
    | .bget b dev blockno =>
      if b ∈ s.idequeue ∨ (s.buf b).dirty ∨ ¬(dev = 1 ∨ dev = 2) then none
      else some (s.set b {s.buf b with dev := dev, blockno := blockno, valid := false})
    | .edit b data => if b ∈ s.idequeue then none else some (s.set b {s.buf b with data := data})
    | .mark b => if b ∈ s.idequeue then none else some (s.set b {s.buf b with dirty := true})

/-- An interrupt finds nothing to finish, or was caused by a command. -/
def Caused (s : State ι) : Move ι → Prop
  | .ideintr flag _ _ => s.idequeue = [] ∨ s.raised (line flag) = true
  | _ => True

instance (s : State ι) (m : Move ι) : Decidable (Caused s m) := by
  cases m <;> unfold Caused <;> infer_instance

/-- The sectors of a requested block have numbers of 28 bits. -/
def Addressed (s : State ι) : Move ι → Prop
  | .iderw b => (s.buf b).blockno.toNat < 2^26
  | _ => True

instance (s : State ι) (m : Move ι) : Decidable (Addressed s m) := by
  cases m <;> unfold Addressed <;> infer_instance

/-- Interrupt `m` finishes the request for `b` at the head of the queue. It comes from the channel of its
device, which was given the command; a read gets the block of the buffer, unless there was an error, and a
write has put the data there. -/
structure Finishes (s s' : State ι) (m : Move ι) (b : ι) : Prop where
  interrupt : ∃ flag error junk, m = .ideintr flag error junk ∧ line flag = channel (s.buf b).dev ∧
    ((s.buf b).dirty = false →
      (s'.buf b).data = if error then (s.buf b).data else s.block (s.buf b).dev (s.buf b).blockno)
  head : s.idequeue.head? = some b
  started : s.command (channel (s.buf b).dev) = some (request (s.buf b))
  written : (s.buf b).dirty = true → s.block (s.buf b).dev (s.buf b).blockno = (s.buf b).data

structure Driven (s : State ι) : Prop where
  once : s.idequeue.Nodup
  small : ∀ b ∈ s.idequeue, (s.buf b).blockno.toNat < 2^26
  idle : s.idequeue = [] → ∀ c, s.raised c = false
  busy : ∀ b, s.idequeue.head? = some b →
    (∀ c, s.raised c = true ↔ c = channel (s.buf b).dev) ∧ s.command (channel (s.buf b).dev) = some (request (s.buf b)) ∧
      ((s.buf b).dirty = true → s.block (s.buf b).dev (s.buf b).blockno = (s.buf b).data)

section

omit [DecidableEq ι]

variable (s : State ι) (b : ι)

@[simp] theorem idestart_idequeue : (idestart s b).idequeue = s.idequeue := by
  unfold idestart State.panic; grind

@[simp] theorem idestart_buf : (idestart s b).buf = s.buf := by
  unfold idestart State.panic; grind

variable {s b}

theorem idestart_fits (alive : (idestart s b).panicked = none) : ¬((s.buf b).dev = 1 ∧ (s.buf b).blockno.toNat ≥ fssize) := by
  intro large
  rw [idestart,if_pos large] at alive
  cases alive

theorem idestart_command (alive : (idestart s b).panicked = none) :
    (idestart s b).command (channel (s.buf b).dev) = some (request (s.buf b)) := by
  rw [idestart,if_neg (idestart_fits alive)]
  split <;> simp

theorem idestart_raised (alive : (idestart s b).panicked = none) (quiet : ∀ c, s.raised c = false) (c : Channel) :
    (idestart s b).raised c = true ↔ c = channel (s.buf b).dev := by
  have update : (idestart s b).raised = update s.raised (channel (s.buf b).dev) true := by
    rw [idestart,if_neg (idestart_fits alive)]
    split <;> rfl
  by_cases here : c = channel (s.buf b).dev
  · simp [update,here]
  · simp [update,here,quiet]

theorem idestart_written (alive : (idestart s b).panicked = none) (dirty : (s.buf b).dirty = true)
    (small : (s.buf b).blockno.toNat < 2^26) :
    (idestart s b).block (s.buf b).dev (s.buf b).blockno = (s.buf b).data := by
  rw [idestart,if_neg (idestart_fits alive),if_pos dirty]
  simp only [State.block,request,taskFile_drive,taskFile_lba _ _ small,update_self]
  exact blockAt_storeAt _ _ _

theorem idestart_driven {rest : List ι} (queue : s.idequeue = b :: rest) (once : s.idequeue.Nodup)
    (small : ∀ b ∈ s.idequeue, (s.buf b).blockno.toNat < 2^26) (quiet : ∀ c, s.raised c = false)
    (alive : (idestart s b).panicked = none) : Driven (idestart s b) := by
  have mem : b ∈ s.idequeue := by rw [queue]; exact List.mem_cons_self
  refine ⟨by simpa using once,by simpa using small,fun empty => ?_,fun x head => ?_⟩
  · rw [idestart_idequeue,queue] at empty
    cases empty
  · rw [idestart_idequeue,queue] at head
    obtain rfl : b = x := Option.some.inj head
    rw [idestart_buf]
    exact ⟨idestart_raised alive quiet,idestart_command alive,fun dirty => idestart_written alive dirty (small b mem)⟩

end

/-- What leaves the queue, becomes valid or clean, or gets other data while it is in the queue. -/
def Touched (s s' : State ι) (b : ι) : Prop :=
  (b ∈ s.idequeue ∧ b ∉ s'.idequeue) ∨ ((s.buf b).valid = false ∧ (s'.buf b).valid = true) ∨
    ((s.buf b).dirty = true ∧ (s'.buf b).dirty = false) ∨ (b ∈ s.idequeue ∧ (s'.buf b).data ≠ (s.buf b).data)

section

variable {s : State ι} {b : ι}

theorem Driven.set (driven : Driven s) (apart : b ∉ s.idequeue) (buf : Buf) : Driven (s.set b buf) := by
  have same : ∀ x ∈ s.idequeue, (s.set b buf).buf x = s.buf x := fun x mem =>
    update_of_ne (by rintro rfl; exact apart mem) _ _
  refine ⟨driven.once,fun x mem => ?_,driven.idle,fun x head => ?_⟩
  · rw [same x mem]
    exact driven.small x mem
  · rw [same x (List.mem_of_head? head)]
    exact driven.busy x head

omit [DecidableEq ι] in
theorem iderw_cases (s : State ι) (b : ι) : (∃ message, iderw s b = s.panic message) ∨
    (s.idequeue = [] ∧ iderw s b = idestart (s.append b) b) ∨ (s.idequeue ≠ [] ∧ iderw s b = s.append b) := by
  unfold iderw; grind

omit [DecidableEq ι] in
theorem iderw_driven (driven : Driven s) (apart : b ∉ s.idequeue) (small : (s.buf b).blockno.toNat < 2^26)
    (alive : (iderw s b).panicked = none) : Driven (iderw s b) := by
  have once : (s.append b).idequeue.Nodup := by
    refine List.nodup_append.mpr ⟨driven.once,List.nodup_singleton b,fun x mem y here => ?_⟩
    rw [List.mem_singleton.mp here]
    rintro rfl
    exact apart mem
  have below : ∀ x ∈ (s.append b).idequeue, (s.buf x).blockno.toNat < 2^26 := by
    intro x mem
    obtain queued | here := List.mem_append.mp mem
    · exact driven.small x queued
    · rwa [List.mem_singleton.mp here]
  obtain ⟨message,panics⟩ | ⟨idle,starts⟩ | ⟨busy,waits⟩ := iderw_cases s b
  · rw [panics] at alive
    cases alive
  · rw [starts] at alive ⊢
    exact idestart_driven (by simp [State.append,idle] : (s.append b).idequeue = [b]) once below (driven.idle idle) alive
  · rw [waits]
    obtain ⟨first,rest,queue⟩ := List.exists_cons_of_ne_nil busy
    refine ⟨once,below,fun empty => ?_,fun x head => driven.busy x ?_⟩
    · simp [State.append] at empty
    · simpa [State.append,queue] using head

omit [DecidableEq ι] in
theorem Driven.quiet (driven : Driven s) {c : Channel} (caused : s.idequeue = [] ∨ s.raised c = true) (other : Channel) :
    (s.lower c).raised other = false := by
  change update s.raised c false other = false
  by_cases here : other = c
  · rw [here,update_self]
  · rw [update_of_ne here]
    obtain empty | up := caused
    · exact driven.idle empty other
    · cases queue : s.idequeue with
      | nil => exact driven.idle queue other
      | cons b rest =>
        obtain ⟨only,-,-⟩ := driven.busy b (by rw [queue]; rfl)
        by_contra raised
        exact here (((only other).mp (by simpa using raised)).trans ((only c).mp up).symm)

theorem ideintr_cases (s : State ι) (flag : UInt32) (error : Bool) (junk : Block) :
    (s.idequeue = [] ∧ ideintr s flag error junk = s.lower (line flag)) ∨
    ∃ b rest, s.idequeue = b :: rest ∧ (ideintr s flag error junk = finish (s.lower (line flag)) (line flag) b rest error junk ∧ rest = [] ∨
      ∃ next others, rest = next :: others ∧
        ideintr s flag error junk = idestart (finish (s.lower (line flag)) (line flag) b rest error junk) next) := by
  unfold ideintr
  match queue : s.idequeue with
  | [] => exact .inl ⟨rfl,by simp [State.lower,queue]⟩
  | [b] => exact .inr ⟨b,[],rfl,.inl ⟨by simp [State.lower,queue],rfl⟩⟩
  | b :: next :: others => exact .inr ⟨b,_,rfl,.inr ⟨next,others,rfl,by simp [State.lower,queue]⟩⟩

theorem ideintr_head {rest : List ι} (queue : s.idequeue = b :: rest) (flag : UInt32) (error : Bool) (junk : Block) :
    (ideintr s flag error junk).idequeue = rest ∧
      (ideintr s flag error junk).buf = (finish (s.lower (line flag)) (line flag) b rest error junk).buf := by
  obtain ⟨empty,-⟩ | ⟨b',rest',queue',⟨same,-⟩ | ⟨next,others,-,same⟩⟩ := ideintr_cases s flag error junk
  · rw [queue] at empty
    cases empty
  all_goals
    obtain ⟨rfl,rfl⟩ := List.cons.inj (queue.symm.trans queue')
    rw [same]
    simp [finish,State.set]

theorem ideintr_driven (driven : Driven s) {flag : UInt32} {error : Bool} {junk : Block}
    (caused : s.idequeue = [] ∨ s.raised (line flag) = true) (alive : (ideintr s flag error junk).panicked = none) :
    Driven (ideintr s flag error junk) := by
  have quiet := driven.quiet caused
  obtain ⟨empty,same⟩ | ⟨b,rest,queue,next⟩ := ideintr_cases s flag error junk
  · rw [same]
    exact ⟨driven.once,driven.small,fun _ => quiet,fun b head => by simp [State.lower,empty] at head⟩
  · have once := driven.once
    rw [queue] at once
    obtain ⟨apart,once⟩ := List.nodup_cons.mp once
    have small : ∀ x ∈ rest, ((finish (s.lower (line flag)) (line flag) b rest error junk).buf x).blockno.toNat < 2^26 := by
      intro x mem
      have kept : (finish (s.lower (line flag)) (line flag) b rest error junk).buf x = s.buf x :=
        update_of_ne (by rintro rfl; exact apart mem) _ _
      rw [kept]
      exact driven.small x (by rw [queue]; exact List.mem_cons_of_mem _ mem)
    obtain ⟨same,rfl⟩ | ⟨next,others,rest_eq,same⟩ := next
    · rw [same]
      exact ⟨once,small,fun _ => quiet,fun b head => by cases head⟩
    · rw [same] at alive ⊢
      exact idestart_driven rest_eq once small quiet alive

omit [DecidableEq ι] in
theorem iderw_untouched {b' : ι} : ¬Touched s (iderw s b') b := by
  have kept : (iderw s b').buf = s.buf ∧ ((iderw s b').idequeue = s.idequeue ∨ (iderw s b').idequeue = s.idequeue ++ [b']) := by
    obtain ⟨message,same⟩ | ⟨-,same⟩ | ⟨-,same⟩ := iderw_cases s b' <;> rw [same] <;> simp [State.append,State.panic]
  unfold Touched
  grind

theorem ideintr_finishes (driven : Driven s) {flag : UInt32} {error : Bool} {junk : Block}
    (caused : s.idequeue = [] ∨ s.raised (line flag) = true) (touched : Touched s (ideintr s flag error junk) b) :
    Finishes s (ideintr s flag error junk) (.ideintr flag error junk) b := by
  cases queue : s.idequeue with
  | nil =>
    obtain ⟨-,same⟩ | ⟨b',rest,other,-⟩ := ideintr_cases s flag error junk
    · rw [same] at touched
      simp [Touched,State.lower] at touched
    · rw [queue] at other
      cases other
  | cons first rest =>
    obtain ⟨left,bufs⟩ := ideintr_head queue flag error junk
    have head : first = b := by
      by_contra other
      have kept : (ideintr s flag error junk).buf b = s.buf b := by
        rw [bufs]
        exact update_of_ne (Ne.symm other) _ _
      unfold Touched at touched
      grind
    subst head
    obtain ⟨only,started,written⟩ := driven.busy first (by rw [queue]; rfl)
    have up : s.raised (line flag) = true := by simpa [queue] using caused
    have own := (only _).mp up
    refine ⟨⟨flag,error,junk,rfl,own,fun clean => ?_⟩,by rw [queue]; rfl,started,written⟩
    have data : ((ideintr s flag error junk).buf first).data = if error then (s.buf first).data else insl s (line flag) junk := by
      rw [bufs]
      simp [finish,State.set,State.lower,clean,insl]
    have read : insl s (line flag) junk = s.block (s.buf first).dev (s.buf first).blockno := by
      have below := driven.small first (by rw [queue]; exact List.mem_cons_self)
      simp only [insl,own,started,request,clean,taskFile_drive,taskFile_lba _ _ below,State.block]
    rw [data,read]

theorem step_cases {s' : State ι} {m : Move ι} (stepped : step s m = some s') :
    (∃ b, m = .iderw b ∧ b ∉ s.idequeue ∧ s' = iderw s b) ∨
    (∃ flag error junk, m = .ideintr flag error junk ∧ s' = ideintr s flag error junk) ∨
    ∃ b buf, b ∉ s.idequeue ∧ s' = s.set b buf ∧ (buf.valid = true → (s.buf b).valid = true) ∧
      ((s.buf b).dirty = true → buf.dirty = true) := by
  unfold step at stepped
  split_ifs at stepped with panicked
  cases m with
  | iderw b =>
    simp only at stepped
    split_ifs at stepped with queued
    exact .inl ⟨b,rfl,queued,(Option.some.inj stepped).symm⟩
  | ideintr flag error junk => exact .inr (.inl ⟨flag,error,junk,rfl,(Option.some.inj stepped).symm⟩)
  | bget b dev blockno =>
    simp only at stepped
    split_ifs at stepped with refused
    exact .inr (.inr ⟨b,_,by tauto,(Option.some.inj stepped).symm,by simp,id⟩)
  | edit b data =>
    simp only at stepped
    split_ifs at stepped with queued
    exact .inr (.inr ⟨b,_,queued,(Option.some.inj stepped).symm,id,id⟩)
  | mark b =>
    simp only at stepped
    split_ifs at stepped with queued
    exact .inr (.inr ⟨b,_,queued,(Option.some.inj stepped).symm,id,fun _ => rfl⟩)

theorem step_finishes {s' : State ι} {m : Move ι} (driven : Driven s) (caused : Caused s m) (stepped : step s m = some s')
    (touched : Touched s s' b) : Finishes s s' m b := by
  obtain ⟨b',rfl,-,rfl⟩ | ⟨flag,error,junk,rfl,rfl⟩ | ⟨b',buf,apart,rfl,valid,dirty⟩ := step_cases stepped
  · exact absurd touched iderw_untouched
  · exact ideintr_finishes driven caused touched
  · unfold Touched State.set at touched
    grind

theorem step_driven {s' : State ι} {m : Move ι} (driven : Driven s) (meets : Caused s m ∧ Addressed s m) (stepped : step s m = some s')
    (alive : s'.panicked = none) : Driven s' := by
  obtain ⟨b',rfl,apart,rfl⟩ | ⟨flag,error,junk,rfl,rfl⟩ | ⟨b',buf,apart,rfl,-,-⟩ := step_cases stepped
  · exact iderw_driven driven apart meets.2 alive
  · exact ideintr_driven driven meets.1 alive
  · exact driven.set apart buf

theorem ideintr_touches {flag : UInt32} {error : Bool} {junk : Block} {rest : List ι} (driven : Driven s)
    (queue : s.idequeue = b :: rest) : Touched s (ideintr s flag error junk) b := by
  have once := driven.once
  rw [queue] at once
  refine .inl ⟨by rw [queue]; exact List.mem_cons_self,?_⟩
  rw [(ideintr_head queue _ _ _).1]
  exact (List.nodup_cons.mp once).1

end

def boot (buf : ι → Buf) (drives : Channel → Bool → Nat → Sector) (havedisk1 havedisk2 : Bool) : State ι where
  idequeue := []
  buf := buf
  command := fun _ => none
  raised := fun _ => false
  drives := drives
  havedisk1 := havedisk1
  havedisk2 := havedisk2
  panicked := none

section

variable {buf : ι → Buf} {drives : Channel → Bool → Nat → Sector} {havedisk1 havedisk2 : Bool}

omit [DecidableEq ι] in
theorem boot_driven : Driven (boot buf drives havedisk1 havedisk2) :=
  ⟨List.nodup_nil,by simp [boot],fun _ _ => rfl,fun b head => by cases head⟩

theorem step_alive {s s' : State ι} {m : Move ι} (stepped : step s m = some s') : s.panicked = none := by
  unfold step at stepped
  split_ifs at stepped with panicked
  simpa using panicked

theorem run_driven {moves : List (Move ι)} {s : State ι} (ran : schedule step moves (boot buf drives havedisk1 havedisk2) = some s)
    (meets : Throughout step (fun s m => Caused s m ∧ Addressed s m) moves (boot buf drives havedisk1 havedisk2))
    (alive : s.panicked = none) : Driven s := by
  have keeps : ∀ (s : State ι) m s', (s.panicked = none → Driven s) → Caused s m ∧ Addressed s m → step s m = some s' →
      (s'.panicked = none → Driven s') :=
    fun s m s' driven here stepped => step_driven (driven (step_alive stepped)) here stepped
  exact schedule_keeps keeps meets (fun _ => boot_driven) ran alive

end

/-- After any run of requests for blocks that have sector numbers of 28 bits and interrupts that a command caused, the
next step finishes only a request that was started, from the channel of its own device and with the data of
its own block, exactly if it is no interrupt that nothing caused. -/
theorem completion_of_own_request (buf : ι → Buf) (drives : Channel → Bool → Nat → Sector) (havedisk1 havedisk2 : Bool)
    (moves : List (Move ι)) (s s' : State ι) (m : Move ι)
    (ran : schedule step moves (boot buf drives havedisk1 havedisk2) = some s)
    (meets : Throughout step (fun s m => Caused s m ∧ Addressed s m) moves (boot buf drives havedisk1 havedisk2))
    (stepped : step s m = some s') : (∀ b, Touched s s' b → Finishes s s' m b) ↔ Caused s m := by
  have driven := run_driven ran meets (step_alive stepped)
  refine ⟨fun finishes => ?_,fun caused b touched => step_finishes driven caused stepped touched⟩
  cases m with
  | ideintr flag error junk =>
    cases queue : s.idequeue with
    | nil => exact .inl queue
    | cons b rest =>
      -- The head is taken off, so it was its own channel that had raised the interrupt.
      have next : s' = ideintr s flag error junk := by simpa [step,step_alive stepped] using stepped.symm
      obtain ⟨flag',error',junk',same,own,-⟩ := (finishes b (next ▸ ideintr_touches driven queue)).interrupt
      obtain ⟨rfl,-,-⟩ := Move.ideintr.inj same
      exact .inr (((driven.busy b (by rw [queue]; rfl)).1 _).mpr own)
  | iderw b => trivial
  | bget b dev blockno => trivial
  | edit b data => trivial
  | mark b => trivial

end

/-- Block 3 of device 1 is requested for buffer 0, block 9 of device 2 for buffer 1. -/
def twoRequests : List (Move (Fin 2)) := [.bget 0 1 3,.bget 1 2 9,.iderw 0,.iderw 1]

/-- No block is cached and the drives have zeros. -/
def blank : State (Fin 2) := boot (fun _ => ⟨0,0,false,false,.zero _⟩) (fun _ _ _ => .zero _) true true

/-- Its own interrupt finishes the first of two requests. -/
theorem completion_of_own_request_first : ∃ s s', schedule step twoRequests blank = some s ∧
    step s (.ideintr 0 false (.zero _)) = some s' ∧ Finishes s s' (.ideintr 0 false (.zero _)) 0 := by
  have meets : Throughout step (fun s m => Caused s m ∧ Addressed s m) twoRequests blank := by decide +kernel
  refine ⟨_,_,rfl,rfl,?_⟩
  exact (completion_of_own_request _ _ _ _ twoRequests _ _ _ rfl meets rfl).mpr (by decide +kernel) 0 (.inl (by decide +kernel))

/-- An interrupt of the second channel that no command caused finishes the read of device 1, with bytes that
are not those of the block. -/
theorem spurious_interrupt_completes : ∃ s s', schedule step twoRequests blank = some s ∧
    step s (.ideintr 1 false (fun _ => 1)) = some s' ∧ Touched s s' 0 ∧ ¬Finishes s s' (.ideintr 1 false (fun _ => 1)) 0 ∧
    (s'.buf 0).valid = true ∧ (s'.buf 0).data.byte 0 = 1 ∧ (s.block 1 3).byte 0 = 0 := by
  refine ⟨_,_,rfl,rfl,.inl (by decide +kernel),fun finishes => ?_,by decide +kernel,by decide +kernel,by decide +kernel⟩
  obtain ⟨flag,error,junk,same,own,-⟩ := finishes.interrupt
  obtain ⟨rfl,-,-⟩ := Move.ideintr.inj same
  exact absurd own (by decide +kernel)

end Xv6Ext2.Ide
