import Xv6Ext2.Log

/-! What the programs of the log do to a device, and the invariant of the machine. The contents that
a recovery would leave behind are a function of the disk alone, at every point of a run. -/
namespace Xv6Ext2.Log
open Lib Bio Function

private theorem storeEntries_word (lh : List Blockno) (k : Nat) (data : Block)
    (fits : 4 * (k + lh.length + 1) ≤ bsize) (j : Nat) :
    u32 ((lh.zipIdx k).foldl (fun data entry => data.setU32 (4 * (entry.2 + 1)) entry.1) data).byte (4 * j) =
      if k + 1 ≤ j ∧ j < k + 1 + lh.length then lh.getD (j - k - 1) 0 else u32 data.byte (4 * j) := by
  induction lh generalizing k data with
  | nil => simp only [List.zipIdx_nil,List.foldl_nil,List.length_nil]; rw [if_neg (by omega)]
  | cons b lh ih =>
    simp only [List.length_cons] at fits ⊢
    rw [List.zipIdx_cons,List.foldl_cons,ih (k + 1) _ (by omega)]
    rw [Bytes.u32_setU32_word _ _ _ _ (by omega)]
    by_cases here : j = k + 1
    · subst here
      rw [if_neg (by omega),if_pos rfl,if_pos (by omega)]
      simp
    · rw [if_neg here]
      by_cases later : k + 1 + 1 ≤ j ∧ j < k + 1 + 1 + lh.length
      · rw [if_pos later,if_pos (by omega)]
        obtain ⟨i,shifted⟩ : ∃ i, j - k - 1 = i + 1 := ⟨j - k - 2,by omega⟩
        have same : j - (k + 1) - 1 = i := by omega
        rw [shifted,same,List.getD_cons_succ]
      · rw [if_neg later,if_neg (by omega)]

theorem loadHeader_storeHeader (lh : List Blockno) (data : Block) (fits : lh.length ≤ logsize) :
    loadHeader (storeHeader lh data) = lh := by
  simp only [logsize,maxopblocks] at fits
  have room : 4 * (0 + lh.length + 1) ≤ bsize := by simp only [bsize]; omega
  have count : headerCount (storeHeader lh data) = lh.length := by
    have first := storeEntries_word lh 0 (data.setU32 0 (UInt32.ofNat lh.length)) room 0
    rw [if_neg (by omega)] at first
    have word : u32 (storeHeader lh data).byte 0 = UInt32.ofNat lh.length := by
      rw [storeHeader]
      exact first.trans (Bytes.u32_setU32 _ _ _ (by simp only [bsize]; omega))
    have small : (UInt32.ofNat lh.length).toNat = lh.length := by
      rw [UInt32.toNat_ofNat']; omega
    rw [headerCount,word,small,if_pos (by omega)]
  rw [loadHeader,count]
  apply List.ext_getElem
  · simp
  · intro i left right
    have entry := storeEntries_word lh 0 (data.setU32 0 (UInt32.ofNat lh.length)) room (i + 1)
    rw [if_pos (by omega)] at entry
    simp only [List.getElem_map,List.getElem_range,storeHeader]
    rw [entry]
    simp [List.getD_eq_getElem?_getD,right]

theorem mem_logged {b c : Blockno} {lh : List Blockno} : c ∈ (if b ∈ lh then lh else lh ++ [b]) ↔ c = b ∨ c ∈ lh := by
  split_ifs with absorbed
  · exact ⟨.inr,fun either => either.elim (fun same => same ▸ absorbed) id⟩
  · simp [or_comm]

theorem nodup_logged {b : Blockno} {lh : List Blockno} (nodup : lh.Nodup) : (if b ∈ lh then lh else lh ++ [b]).Nodup := by
  split_ifs with absorbed
  · exact nodup
  · exact List.nodup_append.mpr ⟨nodup,List.nodup_singleton b,fun x old y new same => absorbed (by simp_all)⟩

section Programs

variable (recycle : Dev → Blockno → Bool) {d : Dev} {fail : Fault → Prop}

/-- Where the buffer is not pinned, fewer than NBUF were busy. -/
theorem bread_meets {b : Blockno} (settled : Settled (obs d)) (listed : Listed d) (free : (obs d).held b = false)
    (room : (obs d).dirty b = false → nbuf ≤ busyCount d → fail (.panic "bget: no buffers")) :
    Meets (bread recycle b) d
      (fun _ d' => obs d' = (obs d).lock b ∧ Listed d' ∧ ((obs d).dirty b = false → busyCount d < nbuf)) fail := by
  have busy : busy d b = (obs d).dirty b := by rw [busy_eq,free,Bool.false_or]
  rw [← busy] at room ⊢
  refine (bget_meets listed room).bind ?_
  rintro _ d₁ ⟨same,listed₁,mine,few⟩
  rw [← same] at settled free ⊢
  obtain ⟨d₂,ran,locked⟩ := bread_run (calm_of_settled recycle d₁ settled) free
  refine .of_ok ran ⟨locked,⟨by rw [bread_slots ran]; exact listed₁.nodup,fun x here => ?_⟩,few⟩
  rw [bread_slots ran]
  by_cases other : x = b
  · rw [other]
    exact mine
  · rw [busy_eq,locked] at here
    simp only [Obs.lock,update_of_ne other] at here
    exact listed₁.listed x (by rw [busy_eq]; exact here)

theorem copyBlock_meets (logged home dst src : Blockno) (settled : Settled (obs d)) (listed : Listed d)
    (free : ∀ b, (obs d).held b = false) (apart : logged ≠ home)
    (ends : (dst = logged ∧ src = home) ∨ (dst = home ∧ src = logged))
    (room : fail (.panic "bget: no buffers") ∨ busyCount d < nbuf ∧ (obs d).dirty home = true) :
    Meets (copyBlock recycle logged home dst src) d
      (fun _ d' => obs d' = (obs d).write dst ((obs d).view src) ∧ Listed d' ∧
        ((obs d).dirty logged = false → busyCount d < nbuf)) fail := by
  refine (bread_meets recycle settled listed (free logged)
    fun _ full => room.resolve_right fun both => absurd both.1 (Nat.not_lt.mpr full)).bind ?_
  rintro _ d₁ ⟨obs₁,listed₁,few⟩
  have settled₁ : Settled (obs d₁) := by rw [obs₁]; exact settled.lock logged
  have free₁ : (obs d₁).held home = false := by
    rw [obs₁]; simp [Obs.lock,update_of_ne (Ne.symm apart),free]
  have dirty₁ : (obs d₁).dirty home = (obs d).dirty home := by rw [obs₁]; rfl
  refine (bread_meets recycle settled₁ listed₁ free₁ fun clean _ => room.resolve_right fun both => ?_).bind ?_
  · rw [dirty₁,both.2] at clean
    cases clean
  rintro _ d₂ ⟨obs₂,listed₂,-⟩
  have both : (obs d₂).held logged = true ∧ (obs d₂).held home = true := by
    rw [obs₂,obs₁]; simp [Obs.lock,update_of_ne apart]
  have heldSrc : (obs d₂).held src = true := by rcases ends with ⟨_,rfl⟩ | ⟨_,rfl⟩ <;> simp [both]
  have heldDst : (obs d₂).held dst = true := by rcases ends with ⟨rfl,_⟩ | ⟨rfl,_⟩ <;> simp [both]
  have different : src ≠ dst := by
    rcases ends with ⟨rfl,rfl⟩ | ⟨rfl,rfl⟩
    · exact Ne.symm apart
    · exact apart
  obtain ⟨d₃,run₃,obs₃⟩ := bset_run heldDst ((obs d₂).view src)
  have held₃ : (obs d₃).held dst = true := by rw [obs₃]; exact heldDst
  obtain ⟨d₄,run₄,obs₄⟩ := bwrite_run held₃
  have held₄ : (obs d₄).held src = true := by rw [obs₄,obs₃]; exact heldSrc
  obtain ⟨d₅,run₅,obs₅⟩ := brelse_run held₄
  have held₅ : (obs d₅).held dst = true := by
    rw [obs₅,obs₄,obs₃]
    simp only [Obs.unlock,Obs.flush,Obs.set,update_of_ne (Ne.symm different)]
    exact heldDst
  obtain ⟨d₆,run₆,obs₆⟩ := brelse_run held₅
  refine .step (bdata_run heldSrc) (.step run₃ (.step run₄ (.step run₅ (.of_ok run₆ ⟨?_,?_,few⟩))))
  · rw [obs₆,obs₅,obs₄,obs₃,obs₂,obs₁]
    apply Obs.ext
    · simp [Obs.unlock,Obs.flush,Obs.set,Obs.lock,Obs.write]
    · simp [Obs.unlock,Obs.flush,Obs.set,Obs.lock,Obs.write]
    · funext x
      have free' := free x
      rcases ends with ⟨rfl,rfl⟩ | ⟨rfl,rfl⟩ <;>
        simp only [Obs.unlock,Obs.flush,Obs.set,Obs.lock,Obs.write,update_apply] <;>
        split_ifs <;> simp_all
    · simp [Obs.unlock,Obs.flush,Obs.set,Obs.lock,Obs.write]
  · exact brelse_listed (brelse_listed (bwrite_listed (bset_listed listed₂ run₃) run₄) run₅) run₆

theorem writeHead_meets (start : Blockno) (lh : List Blockno) (settled : Settled (obs d)) (listed : Listed d)
    (free : ∀ b, (obs d).held b = false) (room : fail (.panic "bget: no buffers") ∨ busyCount d < nbuf) :
    Meets (writeHead recycle start lh) d
      (fun _ d' => obs d' = (obs d).write start (storeHeader lh ((obs d).view start)) ∧ Listed d' ∧
        ((obs d).dirty start = false → busyCount d < nbuf)) fail := by
  refine (bread_meets recycle settled listed (free start)
    fun _ full => room.resolve_right fun less => absurd less (Nat.not_lt.mpr full)).bind ?_
  rintro _ d₁ ⟨obs₁,listed₁,few⟩
  have held₁ : (obs d₁).held start = true := by rw [obs₁]; simp [Obs.lock]
  have view₁ : (obs d₁).view start = (obs d).view start := by rw [obs₁]; rfl
  obtain ⟨d₂,run₂,obs₂⟩ := bset_run held₁ (storeHeader lh ((obs d₁).view start))
  have held₂ : (obs d₂).held start = true := by rw [obs₂]; exact held₁
  obtain ⟨d₃,run₃,obs₃⟩ := bwrite_run held₂
  have held₃ : (obs d₃).held start = true := by rw [obs₃]; exact held₂
  obtain ⟨d₄,run₄,obs₄⟩ := brelse_run held₃
  refine .step (bdata_run held₁) (.step run₂ (.step run₃ (.of_ok run₄ ⟨?_,?_,few⟩)))
  · rw [obs₄,obs₃,obs₂,view₁,obs₁,Obs.write_locked _ _ _ (free start)]
  · exact brelse_listed (bwrite_listed (bset_listed listed₁ run₂) run₃) run₄

theorem readHead_meets (start : Blockno) (settled : Settled (obs d)) (listed : Listed d) (free : ∀ b, (obs d).held b = false) :
    Meets (readHead recycle start) d
      (fun lh d' => lh = loadHeader ((obs d).view start) ∧ obs d' = obs d ∧ Listed d') (fun _ => True) := by
  refine (bread_meets recycle settled listed (free start) fun _ _ => trivial).bind ?_
  rintro _ d₁ ⟨obs₁,listed₁,-⟩
  have held₁ : (obs d₁).held start = true := by rw [obs₁]; simp [Obs.lock]
  have view₁ : (obs d₁).view start = (obs d).view start := by rw [obs₁]; rfl
  obtain ⟨d₂,run₂,obs₂⟩ := brelse_run held₁
  refine .step (bdata_run held₁) (.step run₂ (.pure_intro ⟨by rw [view₁],?_,brelse_listed listed₁ run₂⟩))
  rw [obs₂,obs₁,Obs.unlock_lock _ _ (free start)]

theorem modify_meets (b : Blockno) (data : Block) (settled : Settled (obs d)) (listed : Listed d)
    (free : ∀ b, (obs d).held b = false) :
    Meets (modify recycle b data) d
      (fun _ d' => obs d' = ((obs d).set b data).pin b ∧ Listed d' ∧ ((obs d).dirty b = false → busyCount d < nbuf))
      (fun _ => True) := by
  refine (bread_meets recycle settled listed (free b) fun _ _ => trivial).bind ?_
  rintro _ d₁ ⟨obs₁,listed₁,few⟩
  have held₁ : (obs d₁).held b = true := by rw [obs₁]; simp [Obs.lock]
  obtain ⟨d₂,run₂,obs₂⟩ := bset_run held₁ data
  have held₂ : (obs d₂).held b = true := by rw [obs₂]; exact held₁
  obtain ⟨d₃,run₃,obs₃⟩ := bpin_run held₂
  have held₃ : (obs d₃).held b = true := by rw [obs₃]; exact held₂
  obtain ⟨d₄,run₄,obs₄⟩ := brelse_run held₃
  refine .step run₂ (.step run₃ (.of_ok run₄ ⟨?_,?_,few⟩))
  · rw [obs₄,obs₃,obs₂,obs₁]
    have same : update (obs d).held b false = (obs d).held := by
      rw [← free b,update_eq_self]
    simp only [Obs.unlock,Obs.pin,Obs.set,Obs.lock,update_idem,same]
  · exact brelse_listed (bpin_listed (bset_listed listed₁ run₂) run₃) run₄

end Programs

def Home (start : Blockno) (size : Nat) (b : Blockno) : Prop := ¬Area start size b

instance (start : Blockno) (size : Nat) (b : Blockno) : Decidable (Home start size b) :=
  inferInstanceAs (Decidable (¬Area start size b))

def Agree (start : Blockno) (size : Nat) (f g : Blockno → Block) : Prop :=
  ∀ b, Home start size b → f b = g b

def installs (start : Blockno) (disk : Blockno → Block) (lh : List Blockno) : List (Blockno × Block) :=
  lh.zipIdx.map (fun entry => (entry.1,disk (logBlock start entry.2)))

def header (start : Blockno) (disk : Blockno → Block) : List Blockno := loadHeader (disk start)

def replay (start : Blockno) (disk : Blockno → Block) : Blockno → Block :=
  applyWrites (installs start disk (header start disk)) disk

/-- A list of logged blocks the log area has room for. -/
structure Fits (start : Blockno) (size : Nat) (lh : List Blockno) : Prop where
  home : ∀ b ∈ lh, Home start size b
  entries : lh.length ≤ logsize
  room : lh.length < size

structure Quiet (m : Machine) : Prop where
  positive : 0 < m.log.size
  bounded : m.log.size < 2^31
  counted : m.log.outstanding = m.ops.length
  free : ∀ b, (obs m.dev).held b = false
  settled : Settled (obs m.dev)
  listed : Listed m.dev
  pinned : ∀ b, (obs m.dev).dirty b = true → Home m.log.start m.log.size b

/-- The transaction is in the buffers. If it has pinned all of them, `commit` does not get anywhere. -/
structure Pending (m : Machine) (h : History) : Prop where
  blank : header m.log.start m.dev.disk = []
  before : Agree m.log.start m.log.size m.dev.disk h.before
  after : Agree m.log.start m.log.size (obs m.dev).view h.after
  logged : ∀ w ∈ h.writes, w.1 ∈ m.log.lh
  nodup : m.log.lh.Nodup
  pins : ∀ b ∈ m.log.lh, (obs m.dev).dirty b = true
  fits : m.log.lh.length < nbuf → Fits m.log.start m.log.size m.log.lh
  large : nbuf ≤ m.log.lh.length → nbuf ≤ m.log.size
  home : ∀ b ∈ m.log.lh, Home m.log.start m.log.size b

def Copied (m : Machine) (h : History) (k : Nat) : Prop :=
  ∀ i < k, ∀ b, m.log.lh[i]? = some b → m.dev.disk (logBlock m.log.start i) = h.after b

def remaining (m : Machine) (tail : Nat) : Blockno → Block :=
  applyWrites ((installs m.log.start m.dev.disk m.log.lh).drop tail) m.dev.disk

/-- The transaction is in the log, and homes not yet installed are still to be overwritten. -/
structure Committed (m : Machine) (h : History) (tail : Nat) : Prop where
  head : header m.log.start m.dev.disk = m.log.lh
  fits : Fits m.log.start m.log.size m.log.lh
  copied : Copied m h m.log.lh.length
  after : Agree m.log.start m.log.size (obs m.dev).view h.after
  rest : Agree m.log.start m.log.size (remaining m tail) h.after

structure Recovers (start : Blockno) (size : Nat) (disk : Blockno → Block) (h : History)
    (t : Blockno → Block) : Prop where
  target : t = h.before ∨ t = h.after
  fits : Fits start size (header start disk)
  replayed : Agree start size (replay start disk) t

structure Recovering (m : Machine) (h : History) (tail : Nat) (t : Blockno → Block) : Prop where
  recovers : Recovers m.log.start m.log.size m.dev.disk h t
  head : header m.log.start m.dev.disk = m.log.lh
  rest : Agree m.log.start m.log.size (remaining m tail) t
  clean : ∀ b, (obs m.dev).dirty b = false

def PhaseInv (m : Machine) (h : History) : Prop :=
  match m.phase with
  | .running => Pending m h ∧ ∀ b data, some (b,data) ∈ m.ops → Home m.log.start m.log.size b
  | .writeLog tail => Pending m h ∧ m.ops = [] ∧ tail < m.log.lh.length ∧ (tail = 0 ∨ m.log.lh.length < nbuf) ∧ Copied m h tail
  | .writeHead => Pending m h ∧ m.ops = [] ∧ 0 < m.log.lh.length ∧ Copied m h m.log.lh.length
  | .install tail => Committed m h tail ∧ m.ops = [] ∧ tail < m.log.lh.length
  | .clear => Committed m h m.log.lh.length ∧ m.ops = []
  | .readHead => m.ops = [] ∧ (∀ b, (obs m.dev).dirty b = false) ∧
      ∃ t, Recovers m.log.start m.log.size m.dev.disk h t
  | .reinstall tail => m.ops = [] ∧ tail < m.log.lh.length ∧ ∃ t, Recovering m h tail t
  | .reclear => m.ops = [] ∧ ∃ t, Recovering m h m.log.lh.length t

structure Inv (m : Machine) (h : History) : Prop where
  quiet : Quiet m
  phase : PhaseInv m h

section Area

variable {start : Blockno} {size : Nat}

theorem start_area (positive : 0 < size) : Area start size start := ⟨0,positive,by simp⟩

theorem logBlock_area (i : Nat) (inside : i + 1 < size) : Area start size (logBlock start i) :=
  ⟨i + 1,inside,rfl⟩

private theorem ofNat_inj_of_lt (i j : Nat) (hi : i < 2^32) (hj : j < 2^32)
    (same : UInt32.ofNat i = UInt32.ofNat j) : i = j := by
  have values := congrArg UInt32.toNat same
  rwa [UInt32.toNat_ofNat',UInt32.toNat_ofNat',Nat.mod_eq_of_lt hi,Nat.mod_eq_of_lt hj] at values

theorem logBlock_inj (i j : Nat) (hi : i < 2^31) (hj : j < 2^31)
    (same : logBlock start i = logBlock start j) : i = j := by
  have := ofNat_inj_of_lt (i + 1) (j + 1) (by omega) (by omega) ((UInt32.add_right_inj start).mp same)
  omega

theorem logBlock_ne_start (i : Nat) (bound : i < 2^31) : logBlock start i ≠ start := by
  intro same
  have zero : start + UInt32.ofNat (i + 1) = start + UInt32.ofNat 0 := by simpa [logBlock] using same
  have := ofNat_inj_of_lt (i + 1) 0 (by omega) (by omega) ((UInt32.add_right_inj start).mp zero)
  omega

theorem home_ne {b x : Blockno} (home : Home start size b) (area : Area start size x) : b ≠ x :=
  fun same => home (same ▸ area)

theorem agree_update_area {f g : Blockno → Block} {x : Blockno} {v : Block} (agree : Agree start size f g)
    (area : Area start size x) : Agree start size (update f x v) g := by
  intro b home
  rw [update_of_ne (home_ne home area)]
  exact agree b home

end Area

section Installs

variable (start : Blockno) (disk : Blockno → Block) (lh : List Blockno)

theorem installs_drop (tail : Nat) (b : Blockno) (entry : lh[tail]? = some b) :
    (installs start disk lh).drop tail =
      (b,disk (logBlock start tail)) :: (installs start disk lh).drop (tail + 1) := by
  have bound : tail < lh.length := (List.getElem?_eq_some_iff.mp entry).1
  have value : lh[tail] = b := (List.getElem?_eq_some_iff.mp entry).2
  rw [List.drop_eq_getElem_cons (by simpa [installs] using bound)]
  simp [installs,value]

theorem mem_installs (w : Blockno × Block) (member : w ∈ installs start disk lh) :
    ∃ i, lh[i]? = some w.1 ∧ w.2 = disk (logBlock start i) := by
  obtain ⟨entry,inside,rfl⟩ := List.mem_map.mp member
  exact ⟨entry.2,by simpa using List.mem_zipIdx_iff_getElem?.mp inside,rfl⟩

theorem installs_mem (b : Blockno) (member : b ∈ lh) : ∃ w ∈ installs start disk lh, w.1 = b := by
  obtain ⟨i,bound,value⟩ := List.mem_iff_getElem.mp member
  refine ⟨(b,disk (logBlock start i)),?_,rfl⟩
  refine List.mem_map.mpr ⟨(b,i),?_,rfl⟩
  exact List.mem_zipIdx_iff_getElem?.mpr (by simp [← value,bound])

theorem installs_congr (disk' : Blockno → Block)
    (same : ∀ i < lh.length, disk' (logBlock start i) = disk (logBlock start i)) :
    installs start disk' lh = installs start disk lh := by
  apply List.map_congr_left
  intro entry inside
  have found := List.mem_zipIdx_iff_getElem?.mp inside
  have bound : entry.2 < lh.length := (List.getElem?_eq_some_iff.mp found).1
  rw [same entry.2 bound]

end Installs

section Crash

variable {m : Machine} {h : History}

theorem after_of_unlogged (pending : Pending m h) (b : Blockno) (unlogged : b ∉ m.log.lh) :
    h.after b = h.before b := by
  apply applyWrites_untouched
  intro w member same
  exact unlogged (same ▸ pending.logged w member)

theorem Pending.length_le (pending : Pending m h) (quiet : Quiet m) : m.log.lh.length ≤ busyCount m.dev :=
  quiet.listed.le_busyCount pending.nodup fun b member => by rw [busy_eq,pending.pins b member,Bool.or_true]

/-- If `commit` gets a buffer, the transaction fits. -/
theorem Pending.fits_of_few (pending : Pending m h) (quiet : Quiet m) (few : busyCount m.dev < nbuf) :
    Fits m.log.start m.log.size m.log.lh :=
  pending.fits (Nat.lt_of_le_of_lt (pending.length_le quiet) few)

theorem Pending.area (pending : Pending m h) {tail : Nat} (bound : tail < m.log.lh.length)
    (first : tail = 0 ∨ m.log.lh.length < nbuf) : Area m.log.start m.log.size (logBlock m.log.start tail) := by
  refine logBlock_area tail ?_
  by_cases small : m.log.lh.length < nbuf
  · have room := (pending.fits small).room
    omega
  · have large := pending.large (Nat.le_of_not_lt small)
    have buffers : nbuf = 30 := rfl
    omega

theorem pending_recovers (positive : 0 < m.log.size) (pending : Pending m h) :
    Recovers m.log.start m.log.size m.dev.disk h h.before := by
  refine ⟨.inl rfl,?_,?_⟩
  · rw [pending.blank]
    exact ⟨by simp,by simp,by simpa using positive⟩
  · intro b home
    rw [replay,pending.blank]
    exact pending.before b home

theorem committed_recovers {tail : Nat} (committed : Committed m h tail) :
    Recovers m.log.start m.log.size m.dev.disk h h.after := by
  refine ⟨.inr rfl,by rw [committed.head]; exact committed.fits,?_⟩
  intro b home
  rw [replay,committed.head]
  apply applyWrites_agree
  · intro w member
    obtain ⟨i,entry,value⟩ := mem_installs _ _ _ w member
    rw [value]
    exact committed.copied i (List.getElem?_eq_some_iff.mp entry).1 w.1 entry
  · by_cases logged : b ∈ m.log.lh
    · exact .inr (installs_mem _ _ _ b logged)
    · left
      rw [← committed.rest b home,remaining,applyWrites_untouched]
      intro w member same
      obtain ⟨i,entry,_⟩ := mem_installs _ _ _ w (List.mem_of_mem_drop member)
      exact logged (same ▸ List.mem_of_getElem? entry)

theorem inv_recovers (inv : Inv m h) : ∃ t, Recovers m.log.start m.log.size m.dev.disk h t := by
  have phase := inv.phase
  unfold PhaseInv at phase
  split at phase
  · exact ⟨_,pending_recovers inv.quiet.positive phase.1⟩
  · exact ⟨_,pending_recovers inv.quiet.positive phase.1⟩
  · exact ⟨_,pending_recovers inv.quiet.positive phase.1⟩
  · exact ⟨_,committed_recovers phase.1⟩
  · exact ⟨_,committed_recovers phase.1⟩
  · exact phase.2.2
  · obtain ⟨t,recovering⟩ := phase.2.2
    exact ⟨t,recovering.recovers⟩
  · obtain ⟨t,recovering⟩ := phase.2
    exact ⟨t,recovering.recovers⟩

theorem crash_inv (inv : Inv m h) : Inv (crash m) h := by
  refine ⟨⟨inv.quiet.positive,inv.quiet.bounded,rfl,fun _ => rfl,fun _ _ _ => rfl,⟨List.nodup_nil,fun _ busy => by cases busy⟩,?_⟩,?_⟩
  · intro b dirty
    exact absurd dirty (by simp [obs,crash])
  · have recovers := inv_recovers inv
    exact ⟨rfl,fun _ => rfl,recovers⟩

end Crash

end Xv6Ext2.Log
