import Xv6Ext2.LogInvariant

/-! Every step of the log machine keeps the invariant. No disk write of `commit` or
`recover_from_log` changes what a recovery would leave behind, except the header write of `commit`,
which turns the contents before the transaction into those after it. -/
namespace Xv6Ext2.Log
open Lib Bio Function

section Steps

variable {recycle : Dev → Blockno → Bool} {m m' : Machine} {h : History}

theorem runOn_map {α : Type} {program : K α} {g : α × Machine → Machine} (moved : (runOn m program).map g = some m') :
    ∃ a d', program m.dev = .ok (a,d') ∧ g (a,{m with dev := d'}) = m' := by
  obtain ⟨done,ran,same⟩ := Option.map_eq_some_iff.mp moved
  rw [runOn] at ran
  split at ran
  · obtain rfl := Option.some.inj ran
    exact ⟨_,_,by assumption,same⟩
  · contradiction

private theorem quiet_write (quiet : Quiet m) {d' : Dev} {x : Blockno} {v : Block}
    (wrote : obs d' = (obs m.dev).write x v) (listed : Listed d') (log : Log) (start : log.start = m.log.start)
    (size : log.size = m.log.size) (ops : List (Option (Blockno × Block)))
    (counted : log.outstanding = ops.length) (phase : Phase) : Quiet ⟨d',log,ops,phase⟩ := by
  refine ⟨by rw [size]; exact quiet.positive,by rw [size]; exact quiet.bounded,counted,?_,?_,listed,?_⟩
  · intro b
    rw [wrote]
    exact quiet.free b
  · rw [wrote]
    exact quiet.settled.write x v
  · intro b dirty
    rw [wrote] at dirty
    by_cases same : b = x
    · simp [Obs.write,same] at dirty
    · rw [start,size]
      exact quiet.pinned b (by simpa [Obs.write,update_of_ne same] using dirty)

theorem disk_write {d d' : Dev} {x : Blockno} {v : Block} (wrote : obs d' = (obs d).write x v) :
    d'.disk = update d.disk x v := congrArg Obs.disk wrote

private theorem view_write {d d' : Dev} {x : Blockno} {v : Block} (wrote : obs d' = (obs d).write x v) :
    (obs d').view = update (obs d).view x v := congrArg Obs.view wrote

private theorem area_clean (quiet : Quiet m) {b : Blockno} (area : Area m.log.start m.log.size b) : (obs m.dev).dirty b = false := by
  cases dirty : (obs m.dev).dirty b with
  | false => rfl
  | true => exact absurd area (quiet.pinned b dirty)

private theorem area_view (quiet : Quiet m) {b : Blockno} (area : Area m.log.start m.log.size b) :
    (obs m.dev).view b = m.dev.disk b :=
  quiet.settled b (quiet.free b) (area_clean quiet area)

private theorem next_busy {e : Event} (kind : e = .commit ∨ e = .recover) (busy : m'.phase ≠ .running) : h.next m e m' = h := by
  obtain rfl | rfl := kind
  · exact if_neg busy
  · exact if_neg busy

private theorem install_result {tail : Nat} {d' : Dev} (quiet : Quiet m) (fits : Fits m.log.start m.log.size m.log.lh)
    (bound : tail < m.log.lh.length) (ran : installTrans recycle m.log.start m.log.lh tail m.dev = .ok ((),d')) :
    ∃ b, m.log.lh[tail]? = some b ∧
      obs d' = (obs m.dev).write b (m.dev.disk (logBlock m.log.start tail)) ∧ Listed d' ∧
      header m.log.start d'.disk = header m.log.start m.dev.disk ∧
      ∀ i < m.log.lh.length, d'.disk (logBlock m.log.start i) = m.dev.disk (logBlock m.log.start i) := by
  obtain ⟨b,entry⟩ : ∃ b, m.log.lh[tail]? = some b := ⟨_,List.getElem?_eq_getElem bound⟩
  have home := fits.home b (List.mem_of_getElem? entry)
  have room := fits.room
  have area (i : Nat) (inside : i < m.log.lh.length) : Area m.log.start m.log.size (logBlock m.log.start i) :=
    logBlock_area i (by omega)
  simp only [installTrans,entry] at ran
  have copied : Meets (copyBlock recycle (logBlock m.log.start tail) b b (logBlock m.log.start tail)) m.dev _ (fun _ => True) :=
    copyBlock_meets recycle _ _ _ _ quiet.settled quiet.listed quiet.free (Ne.symm (home_ne home (area tail bound))) (.inr ⟨rfl,rfl⟩)
      (.inl trivial)
  obtain ⟨wrote,listed,-⟩ := copied.result ran
  rw [area_view quiet (area tail bound)] at wrote
  have disk := disk_write wrote
  refine ⟨b,entry,wrote,listed,?_,?_⟩
  · rw [header,disk,update_of_ne (Ne.symm (home_ne home (start_area quiet.positive)))]
    rfl
  · intro i inside
    rw [disk,update_of_ne (Ne.symm (home_ne home (area i inside)))]

theorem writeHead_result {d' : Dev} {lh : List Blockno} (quiet : Quiet m)
    (ran : writeHead recycle m.log.start lh m.dev = .ok ((),d')) :
    obs d' = (obs m.dev).write m.log.start (storeHeader lh ((obs m.dev).view m.log.start)) ∧ Listed d' ∧ busyCount m.dev < nbuf := by
  have meets : Meets (writeHead recycle m.log.start lh) m.dev _ (fun _ => True) :=
    writeHead_meets recycle _ _ quiet.settled quiet.listed quiet.free (.inl trivial)
  obtain ⟨wrote,listed,few⟩ := meets.result ran
  exact ⟨wrote,listed,few (area_clean quiet (start_area quiet.positive))⟩

theorem writeLog_inv {tail : Nat} (inv : Inv m h) (phase : m.phase = .writeLog tail)
    (moved : commit recycle m = some m') : Inv m' (h.next m .commit m') := by
  have held := inv.phase
  rw [PhaseInv,phase] at held
  obtain ⟨pending,ops,bound,first,copied⟩ := held
  obtain ⟨b,entry⟩ : ∃ b, m.log.lh[tail]? = some b := ⟨_,List.getElem?_eq_getElem bound⟩
  simp only [commit,phase] at moved
  obtain ⟨_,d',ran,moved⟩ := runOn_map moved
  simp only [writeLog,entry] at ran
  have home := pending.home b (List.mem_of_getElem? entry)
  have area := pending.area bound first
  have written : Meets (copyBlock recycle (logBlock m.log.start tail) b (logBlock m.log.start tail) b) m.dev _ (fun _ => True) :=
    copyBlock_meets recycle _ _ _ _ inv.quiet.settled inv.quiet.listed inv.quiet.free (Ne.symm (home_ne home area)) (.inl ⟨rfl,rfl⟩)
      (.inl trivial)
  obtain ⟨wrote,listed,few⟩ := written.result ran
  have few := few (area_clean inv.quiet area)
  have room := (pending.fits_of_few inv.quiet few).room
  have value : (obs m.dev).view b = h.after b := pending.after b home
  have disk := disk_write wrote
  have bounded := inv.quiet.bounded
  rw [next_busy (.inl rfl) (by subst moved; simp only []; split_ifs <;> simp)]
  have pending' (p : Phase) : Pending ⟨d',m.log,m.ops,p⟩ h := by
    refine ⟨?_,?_,?_,pending.logged,pending.nodup,?_,pending.fits,pending.large,pending.home⟩
    · simp only [header,disk,update_of_ne (Ne.symm (logBlock_ne_start tail (by omega)))]
      exact pending.blank
    · simp only [disk]
      exact agree_update_area pending.before area
    · simp only [view_write wrote]
      exact agree_update_area pending.after area
    · intro c member
      rw [wrote]
      exact (update_of_ne (home_ne (pending.home c member) area) _ _).trans (pending.pins c member)
  have copied' (p : Phase) : Copied ⟨d',m.log,m.ops,p⟩ h (tail + 1) := by
    intro i inside c found
    simp only [disk]
    by_cases same : i = tail
    · subst same
      rw [update_self,value]
      rw [show c = b from Option.some.inj (found.symm.trans entry)]
    · rw [update_of_ne (fun equal => same (logBlock_inj i tail (by omega) (by omega) equal))]
      exact copied i (by omega) c found
  have small : m.log.lh.length < nbuf := Nat.lt_of_le_of_lt (pending.length_le inv.quiet) few
  subst moved
  refine ⟨quiet_write inv.quiet wrote listed _ rfl rfl _ inv.quiet.counted _,?_⟩
  split_ifs with more
  · exact ⟨pending' _,ops,more,.inr small,copied' _⟩
  · have last : tail + 1 = m.log.lh.length := by omega
    exact ⟨pending' _,ops,Nat.zero_lt_of_lt bound,last ▸ copied' _⟩

theorem writeHead_inv (inv : Inv m h) (phase : m.phase = .writeHead)
    (moved : commit recycle m = some m') : Inv m' (h.next m .commit m') := by
  have held := inv.phase
  rw [PhaseInv,phase] at held
  obtain ⟨pending,ops,positive,copied⟩ := held
  simp only [commit,phase] at moved
  obtain ⟨_,d',ran,rfl⟩ := runOn_map moved
  obtain ⟨wrote,listed,few⟩ := writeHead_result inv.quiet ran
  have fits := pending.fits_of_few inv.quiet few
  have area : Area m.log.start m.log.size m.log.start := start_area inv.quiet.positive
  have disk := disk_write wrote
  have bounded := inv.quiet.bounded
  have room := fits.room
  refine ⟨quiet_write inv.quiet wrote listed _ rfl rfl _ inv.quiet.counted _,⟨?_,fits,?_,?_,?_⟩,ops,positive⟩
  · simp only [header,disk,update_self]
    exact loadHeader_storeHeader _ _ fits.entries
  · intro i inside b entry
    have inside : i < m.log.lh.length := inside
    simp only [disk,update_of_ne (logBlock_ne_start i (by omega : i < 2^31))]
    exact copied i inside b entry
  · simp only [view_write wrote]
    exact agree_update_area pending.after area
  · intro b home
    simp only [remaining,List.drop_zero]
    apply applyWrites_agree (t := h.after)
    · intro w member
      obtain ⟨i,entry,value⟩ := mem_installs _ _ _ w member
      have inside : i < m.log.lh.length := (List.getElem?_eq_some_iff.mp entry).1
      rw [value,disk,update_of_ne (logBlock_ne_start i (by omega))]
      exact copied i inside w.1 entry
    · by_cases logged : b ∈ m.log.lh
      · exact .inr (installs_mem _ _ _ b logged)
      · left
        rw [after_of_unlogged pending b logged,disk,update_of_ne (home_ne home area)]
        exact pending.before b home

theorem install_inv {tail : Nat} (inv : Inv m h) (phase : m.phase = .install tail)
    (moved : commit recycle m = some m') : Inv m' (h.next m .commit m') := by
  have held := inv.phase
  rw [PhaseInv,phase] at held
  obtain ⟨committed,ops,bound⟩ := held
  simp only [commit,phase] at moved
  obtain ⟨_,d',ran,moved⟩ := runOn_map moved
  obtain ⟨b,entry,wrote,listed,head,logged⟩ := install_result inv.quiet committed.fits bound ran
  have value : m.dev.disk (logBlock m.log.start tail) = h.after b := committed.copied tail bound b entry
  rw [next_busy (.inl rfl) (by subst moved; simp only []; split_ifs <;> simp)]
  have committed' (p : Phase) : Committed ⟨d',m.log,m.ops,p⟩ h (tail + 1) := by
    refine ⟨head.trans committed.head,committed.fits,?_,?_,?_⟩
    · intro i inside c found
      exact (logged i inside).trans (committed.copied i inside c found)
    · intro c homeC
      rw [view_write wrote]
      by_cases same : c = b
      · rw [same,update_self,value]
      · rw [update_of_ne same]
        exact committed.after c homeC
    · have same : remaining ⟨d',m.log,m.ops,p⟩ (tail + 1) = remaining m tail := by
        simp only [remaining]
        rw [installs_congr _ m.dev.disk _ d'.disk logged,installs_drop _ _ _ tail b entry,applyWrites,disk_write wrote]
      rw [same]
      exact committed.rest
  subst moved
  refine ⟨quiet_write inv.quiet wrote listed _ rfl rfl _ inv.quiet.counted _,?_⟩
  split_ifs with more
  · exact ⟨committed' _,ops,more⟩
  · have last : tail + 1 = m.log.lh.length := by omega
    exact ⟨last ▸ committed' _,ops⟩

theorem cleared_inv {t : Blockno → Block} {d' : Dev} {v : Block} (quiet : Quiet m)
    (ops : m.ops = []) (wrote : obs d' = (obs m.dev).write m.log.start (storeHeader [] v)) (listed : Listed d')
    (view : Agree m.log.start m.log.size (obs m.dev).view t)
    (disk : Agree m.log.start m.log.size m.dev.disk t) (committing : Bool) :
    Inv ⟨d',{m.log with lh := [],committing := committing},[],.running⟩ ⟨d'.disk,[]⟩ := by
  have area : Area m.log.start m.log.size m.log.start := start_area quiet.positive
  have counted : m.log.outstanding = 0 := by rw [quiet.counted,ops]; rfl
  refine ⟨quiet_write quiet wrote listed _ (by rfl) (by rfl) _ counted _,
    ⟨?_,fun _ _ => rfl,?_,by simp,List.nodup_nil,by simp,fun _ => ⟨by simp,by simp,quiet.positive⟩,by simp [nbuf],by simp⟩,by simp⟩
  · simp only [header,disk_write wrote,update_self]
    exact loadHeader_storeHeader _ _ (by simp)
  · intro b home
    simp only [History.after,applyWrites,view_write wrote,disk_write wrote]
    rw [update_of_ne (home_ne home area),update_of_ne (home_ne home area)]
    rw [view b home,disk b home]

theorem clear_inv (inv : Inv m h) (phase : m.phase = .clear) (moved : commit recycle m = some m') :
    Inv m' (h.next m .commit m') := by
  have held := inv.phase
  rw [PhaseInv,phase] at held
  obtain ⟨committed,ops⟩ := held
  simp only [commit,phase] at moved
  obtain ⟨_,d',ran,rfl⟩ := runOn_map moved
  obtain ⟨wrote,listed,-⟩ := writeHead_result inv.quiet ran
  have disk : Agree m.log.start m.log.size m.dev.disk h.after := by
    intro b home
    have same := committed.rest b home
    rwa [remaining,List.drop_eq_nil_of_le (by simp [installs])] at same
  rw [ops]
  exact cleared_inv inv.quiet ops wrote listed committed.after disk false

theorem commit_inv (inv : Inv m h) (moved : commit recycle m = some m') :
    Inv m' (h.next m .commit m') := by
  cases phase : m.phase with
  | writeLog tail => exact writeLog_inv inv phase moved
  | writeHead => exact writeHead_inv inv phase moved
  | install tail => exact install_inv inv phase moved
  | clear => exact clear_inv inv phase moved
  | _ => simp [commit,phase] at moved

theorem readHead_inv (inv : Inv m h) (phase : m.phase = .readHead) (moved : recover recycle m = some m') :
    Inv m' (h.next m .recover m') := by
  have held := inv.phase
  rw [PhaseInv,phase] at held
  obtain ⟨ops,clean,t,recovers⟩ := held
  simp only [recover,phase] at moved
  obtain ⟨lh,d',ran,moved⟩ := runOn_map moved
  obtain ⟨rfl,same,listed⟩ := (readHead_meets recycle _ inv.quiet.settled inv.quiet.listed inv.quiet.free).result ran
  rw [area_view inv.quiet (start_area inv.quiet.positive)] at moved
  have disk : d'.disk = m.dev.disk := congrArg Obs.disk same
  rw [next_busy (.inr rfl) (by subst moved; simp only []; split_ifs <;> simp)]
  subst moved
  have recovering (p : Phase) : Recovering ⟨d',{m.log with lh := header m.log.start m.dev.disk},m.ops,p⟩ h 0 t :=
    ⟨by rw [disk]; exact recovers,by rw [disk],by rw [remaining,disk]; exact recovers.replayed,
      by rw [same]; exact clean⟩
  refine ⟨⟨inv.quiet.positive,inv.quiet.bounded,inv.quiet.counted,by rw [same]; exact inv.quiet.free,
    by rw [same]; exact inv.quiet.settled,listed,by rw [same]; exact inv.quiet.pinned⟩,?_⟩
  split_ifs with more
  · exact ⟨ops,more,t,recovering _⟩
  · have none : 0 = (header m.log.start m.dev.disk).length := (Nat.eq_zero_of_not_pos more).symm
    exact ⟨ops,t,none ▸ recovering _⟩

theorem reinstall_inv {tail : Nat} (inv : Inv m h) (phase : m.phase = .reinstall tail)
    (moved : recover recycle m = some m') : Inv m' (h.next m .recover m') := by
  have held := inv.phase
  rw [PhaseInv,phase] at held
  obtain ⟨ops,bound,t,recovering⟩ := held
  have fits : Fits m.log.start m.log.size m.log.lh := by
    rw [← recovering.head]
    exact recovering.recovers.fits
  simp only [recover,phase] at moved
  obtain ⟨_,d',ran,moved⟩ := runOn_map moved
  obtain ⟨b,entry,wrote,listed,head,logged⟩ := install_result inv.quiet fits bound ran
  have disk := disk_write wrote
  rw [next_busy (.inr rfl) (by subst moved; simp only []; split_ifs <;> simp)]
  have same : installs m.log.start d'.disk m.log.lh = installs m.log.start m.dev.disk m.log.lh :=
    installs_congr _ _ _ _ logged
  have recovering' (p : Phase) : Recovering ⟨d',m.log,m.ops,p⟩ h (tail + 1) t := by
    refine ⟨⟨recovering.recovers.target,by rw [head]; exact recovering.recovers.fits,?_⟩,head.trans recovering.head,?_,?_⟩
    · have replayed := recovering.recovers.replayed
      rw [replay,recovering.head] at replayed
      rw [replay,head,recovering.head,same,disk]
      rw [applyWrites_update _ _ _ _ (installs_mem _ _ _ b (List.mem_of_getElem? entry))]
      exact replayed
    · have rest := recovering.rest
      rw [remaining,installs_drop _ _ _ tail b entry,applyWrites] at rest
      rw [remaining]
      simp only [same]
      rw [disk]
      exact rest
    · intro x
      rw [wrote]
      simp only [Obs.write]
      by_cases here : x = b
      · rw [here,update_self]
      · rw [update_of_ne here]
        exact recovering.clean x
  subst moved
  refine ⟨quiet_write inv.quiet wrote listed _ rfl rfl _ inv.quiet.counted _,?_⟩
  split_ifs with more
  · exact ⟨ops,more,t,recovering' _⟩
  · have last : tail + 1 = m.log.lh.length := by omega
    exact ⟨ops,t,last ▸ recovering' _⟩

theorem reclear_homes {t : Blockno → Block} (recovering : Recovering m h m.log.lh.length t) :
    Agree m.log.start m.log.size m.dev.disk t := by
  intro b home
  have same := recovering.rest b home
  rwa [remaining,List.drop_eq_nil_of_le (by simp [installs])] at same

theorem reclear_inv (inv : Inv m h) (phase : m.phase = .reclear) (moved : recover recycle m = some m') :
    Inv m' (h.next m .recover m') := by
  have held := inv.phase
  rw [PhaseInv,phase] at held
  obtain ⟨ops,t,recovering⟩ := held
  simp only [recover,phase] at moved
  obtain ⟨_,d',ran,rfl⟩ := runOn_map moved
  obtain ⟨wrote,listed,-⟩ := writeHead_result inv.quiet ran
  have disk := reclear_homes recovering
  have view : Agree m.log.start m.log.size (obs m.dev).view t := by
    intro b home
    rw [inv.quiet.settled b (inv.quiet.free b) (recovering.clean b)]
    exact disk b home
  rw [ops]
  exact cleared_inv inv.quiet ops wrote listed view disk m.log.committing

theorem recover_inv (inv : Inv m h) (moved : recover recycle m = some m') :
    Inv m' (h.next m .recover m') := by
  cases phase : m.phase with
  | readHead => exact readHead_inv inv phase moved
  | reinstall tail => exact reinstall_inv inv phase moved
  | reclear => exact reclear_inv inv phase moved
  | _ => simp [recover,phase] at moved

private theorem ops_running (inv : Inv m h) {op : Nat} {o : Option (Blockno × Block)}
    (live : m.ops[op]? = some o) : m.phase = .running := by
  have busy : m.ops ≠ [] := by
    intro none
    simp [none] at live
  have held := inv.phase
  unfold PhaseInv at held
  split at held
  · assumption
  · exact absurd held.2.1 busy
  · exact absurd held.2.1 busy
  · exact absurd held.2.1 busy
  · exact absurd held.2 busy
  · exact absurd held.1 busy
  · exact absurd held.1 busy
  · exact absurd held.1 busy

private theorem running_inv (inv : Inv m h) (phase : m.phase = .running) :
    Pending m h ∧ ∀ b data, some (b,data) ∈ m.ops → Home m.log.start m.log.size b := by
  have held := inv.phase
  rwa [PhaseInv,phase] at held

theorem beginOp_inv (inv : Inv m h) (moved : beginOp m = some m') : Inv m' (h.next m .beginOp m') := by
  unfold beginOp at moved
  split_ifs at moved with idle space
  simp only [not_or,ne_eq,not_not] at idle
  obtain ⟨pending,homes⟩ := running_inv inv idle.1
  simp only [Option.some.injEq] at moved
  subst moved
  have quiet := inv.quiet
  refine ⟨⟨quiet.positive,quiet.bounded,?_,quiet.free,quiet.settled,quiet.listed,quiet.pinned⟩,?_⟩
  · simp [quiet.counted]
  · simp only [PhaseInv,idle.1,History.next]
    refine ⟨{pending with},?_⟩
    intro b data member
    exact homes b data (by simpa using member)

theorem check_inv {op : Nat} {b : Blockno} {data : Block} (inv : Inv m h)
    (outside : Home m.log.start m.log.size b) (moved : logWriteCheck m op b data = some m') :
    Inv m' (h.next m (.check op b data) m') := by
  unfold logWriteCheck at moved
  split at moved
  · rename_i live
    have phase := ops_running inv live
    obtain ⟨pending,homes⟩ := running_inv inv phase
    split_ifs at moved
    simp only [Option.some.injEq] at moved
    subst moved
    have quiet := inv.quiet
    refine ⟨⟨quiet.positive,quiet.bounded,?_,quiet.free,quiet.settled,quiet.listed,quiet.pinned⟩,?_⟩
    · simp [quiet.counted]
    · simp only [PhaseInv,phase,History.next]
      refine ⟨{pending with},?_⟩
      intro c value member
      rcases List.mem_or_eq_of_mem_set member with old | new
      · exact homes c value old
      · obtain ⟨rfl,rfl⟩ := Prod.mk.inj (Option.some.inj new)
        exact outside
  · contradiction

/-- A block that is not absorbed still passes the tests of `log_write` under the lock. -/
def roomy (m : Machine) (op : Nat) : Bool :=
  match m.ops[op]? with
  | some (some (b,_)) =>
    decide (b ∈ m.log.lh ∨ (m.log.lh.length < logsize ∧ m.log.lh.length + 1 < m.log.size))
  | _ => true

section Append

variable {b : Blockno} {data : Block} {d' : Dev} (changed : obs d' = ((obs m.dev).set b data).pin b)

include changed

private theorem dirty_pinned (c : Blockno) : (obs d').dirty c = true ↔ c = b ∨ (obs m.dev).dirty c = true := by
  rw [changed]
  by_cases same : c = b
  · simp [Obs.pin,same]
  · simp [Obs.pin,Obs.set,same]

private theorem quiet_append (quiet : Quiet m) (listed : Listed d') (home : Home m.log.start m.log.size b) (lh : List Blockno)
    (op : Nat) : Quiet {m with dev := d', log := {m.log with lh := lh}, ops := m.ops.set op none} := by
  refine ⟨quiet.positive,quiet.bounded,by simp [quiet.counted],?_,?_,listed,?_⟩
  · rw [changed]
    exact quiet.free
  · rw [changed]
    intro x free clean
    by_cases same : x = b
    · simp [Obs.pin,Obs.set,same] at clean
    · simp only [Obs.pin,Obs.set,update_of_ne same] at clean ⊢
      exact quiet.settled x free clean
  · intro x pinned
    rcases (dirty_pinned changed x).mp pinned with rfl | before
    · exact home
    · exact quiet.pinned x before

private theorem pending_append (pending : Pending m h) (home : Home m.log.start m.log.size b)
    (space : b ∉ m.log.lh → nbuf ≤ m.log.size ∨ m.log.lh.length < logsize ∧ m.log.lh.length + 1 < m.log.size)
    (ops : List (Option (Blockno × Block))) (phase : Phase) :
    Pending ⟨d',{m.log with lh := if b ∈ m.log.lh then m.log.lh else m.log.lh ++ [b]},ops,phase⟩
      ⟨h.before,h.writes ++ [(b,data)]⟩ := by
  have disk : d'.disk = m.dev.disk := congrArg Obs.disk changed
  refine ⟨by rw [disk]; exact pending.blank,by rw [disk]; exact pending.before,?_,?_,nodup_logged pending.nodup,?_,?_,?_,?_⟩
  · intro c homeC
    rw [changed]
    simp only [History.after,applyWrites_append,applyWrites,Obs.pin,Obs.set]
    by_cases same : c = b
    · rw [same,update_self,update_self]
    · rw [update_of_ne same,update_of_ne same]
      exact pending.after c homeC
  · intro w member
    rcases List.mem_append.mp member with old | new
    · exact mem_logged.mpr (.inr (pending.logged w old))
    · exact mem_logged.mpr (.inl (by rw [List.mem_singleton.mp new]))
  · intro c member
    rw [dirty_pinned changed]
    exact (mem_logged.mp member).imp_right (pending.pins c)
  · intro small
    dsimp only at small ⊢
    split_ifs at small ⊢ with absorbed
    · exact pending.fits small
    · rw [List.length_append,List.length_singleton] at small
      have fits := pending.fits (by omega)
      have room := space absorbed
      have same : nbuf = logsize := rfl
      refine ⟨fun c member => ?_,?_,?_⟩
      · rcases List.mem_append.mp member with old | new
        · exact fits.home c old
        · rw [List.mem_singleton.mp new]
          exact home
      · rw [List.length_append,List.length_singleton]
        omega
      · rw [List.length_append,List.length_singleton]
        omega
  · dsimp only
    split_ifs with absorbed
    · exact pending.large
    · intro many
      have room := space absorbed
      have same : nbuf = logsize := rfl
      rw [List.length_append,List.length_singleton] at many
      omega
  · intro c member
    rcases mem_logged.mp member with rfl | old
    · exact home
    · exact pending.home c old

end Append

theorem append_inv {op : Nat} (inv : Inv m h) (room : nbuf ≤ m.log.size ∨ roomy m op = true)
    (moved : logWriteAppend recycle m op = some m') : Inv m' (h.next m (.append op) m') := by
  unfold logWriteAppend at moved
  split at moved
  · rename_i b data live
    have phase := ops_running inv live
    obtain ⟨pending,homes⟩ := running_inv inv phase
    have home := homes b data (List.mem_of_getElem? live)
    have space (absent : b ∉ m.log.lh) : nbuf ≤ m.log.size ∨ m.log.lh.length < logsize ∧ m.log.lh.length + 1 < m.log.size :=
      room.imp_right fun room => by simpa [roomy,live,absent] using room
    have next : h.next m (.append op) m' = ⟨h.before,h.writes ++ [(b,data)]⟩ := by
      simp [History.next,live]
    rw [next]
    dsimp only at moved
    generalize grown : (if b ∈ m.log.lh then m.log.lh else m.log.lh ++ [b]) = lh at moved
    by_cases long : lh.length > logsize
    · rw [if_pos long] at moved
      contradiction
    rw [if_neg long] at moved
    subst grown
    obtain ⟨_,d',ran,rfl⟩ := runOn_map moved
    have quiet := inv.quiet
    obtain ⟨changed,listed,-⟩ := (modify_meets recycle b data quiet.settled quiet.listed quiet.free).result ran
    refine ⟨quiet_append changed quiet listed home _ op,?_⟩
    simp only [PhaseInv,phase]
    refine ⟨pending_append changed pending home space _ _,fun c value member => ?_⟩
    rcases List.mem_or_eq_of_mem_set member with old | new
    · exact homes c value old
    · contradiction
  · contradiction

theorem endOp_inv {op : Nat} (inv : Inv m h) (moved : endOp m op = some m') :
    Inv m' (h.next m (.endOp op) m') := by
  unfold endOp at moved
  split at moved
  · rename_i live
    have phase := ops_running inv live
    obtain ⟨pending,homes⟩ := running_inv inv phase
    have bound : op < m.ops.length := (List.getElem?_eq_some_iff.mp live).1
    have quiet := inv.quiet
    have counted : m.log.outstanding - 1 = (m.ops.eraseIdx op).length := by
      rw [List.length_eraseIdx,if_pos bound,quiet.counted]
    split_ifs at moved with committing last
    · simp only [Option.some.injEq] at moved
      subst moved
      have nonempty : 0 < m.log.lh.length := List.length_pos_iff.mpr last.2
      refine ⟨⟨quiet.positive,quiet.bounded,counted,quiet.free,quiet.settled,quiet.listed,quiet.pinned⟩,?_⟩
      refine ⟨{pending with},?_,nonempty,.inl rfl,?_⟩
      · exact List.length_eq_zero_iff.mp (counted.symm.trans last.1)
      · intro i inside
        exact absurd inside (Nat.not_lt_zero i)
    · simp only [Option.some.injEq] at moved
      subst moved
      refine ⟨⟨quiet.positive,quiet.bounded,counted,quiet.free,quiet.settled,quiet.listed,quiet.pinned⟩,?_⟩
      simp only [PhaseInv,phase,History.next]
      refine ⟨{pending with},?_⟩
      intro b data member
      exact homes b data (List.mem_of_mem_eraseIdx member)
  · contradiction

end Steps

end Xv6Ext2.Log
