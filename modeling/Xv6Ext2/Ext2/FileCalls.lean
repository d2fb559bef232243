import Xv6Ext2.Ext2.FileRuns

/-! `ext2_iupdate`, `ext2_readi` and `ext2_writei` on a well-formed file, as one step each. -/
namespace Xv6Ext2.Ext2
open Lib Bio Function

/-- The device after `ext2_iupdate`. -/
def saved (fs : Mount) (ip : Inode) (o : Obs) : Obs :=
  let data := o.view (tableOf fs o ip.inum)
  o.write (tableOf fs o ip.inum)
    (data.patch (inodeOffset fs ip.inum) 128 (inodeRecord ip (recordAt data (inodeOffset fs ip.inum))).byte)

section

variable {fs : Mount} {depth : Fin 15 → Nat} {ip ip' : Inode} {o o' : Obs}

theorem Wf.retag (wf : Wf fs depth ip o) (number : ip'.inum = ip.inum) (pointers : ip'.addrs = ip.addrs) :
    Wf fs depth ip' o := by
  obtain ⟨inum,type,major,nlink,size,addrs⟩ := ip
  obtain ⟨inum',type',major',nlink',size',addrs'⟩ := ip'
  dsimp only at number pointers
  subst number pointers
  exact ⟨wf.group,wf.idle,wf.bitmap_ne,wf.table_ne,wf.distinct,wf.plain,wf.fresh⟩

theorem Wf.table_apart (wf : Wf fs depth ip o) (ρ : Place) (within : ρ.Within depth) (there : ptr ip o ρ ≠ 0) :
    ptr ip o ρ ≠ tableOf fs o ip.inum :=
  fun same => wf.plain ρ within there (.inr (.inr same))

theorem Wf.saved (wf : Wf fs depth ip o) : Wf fs depth ip (saved fs ip o) :=
  wf.write (fun ρ inner => wf.table_apart ρ inner.within) wf.table_ne.1 wf.table_ne.2 _

theorem ptr_saved (wf : Wf fs depth ip o) (σ : Place) (within : σ.Within depth) :
    ptr ip (saved fs ip o) σ = ptr ip o σ :=
  ptr_write (fun ρ inner => wf.table_apart ρ inner.within) _ σ within

theorem content_saved (wf : Wf fs driverDepth ip o) (x : Nat) : content ip (saved fs ip o) x = content ip o x := by
  have within := (driverSlot_leaf (x / bsize)).within
  rw [content,content,ptr_saved wf _ within]
  split_ifs with empty
  · rfl
  · exact congrArg (Bytes.byte · (x % bsize)) (update_of_ne (wf.table_apart _ within empty) _ _)

theorem descIn_run {data : Block} {group : Nat} (small : group < 64) (d : Dev) :
    descIn data group d = .ok (groupDesc data.byte (32 * group),d) := by
  rw [descIn,if_pos (by simp only [bsize]; omega)]
  rfl

theorem iupdate_drift {d : Dev} (group : groupNo fs ip.inum < 64) (idle : ∀ b, (obs d).held b = false)
    (apart : tableOf fs (obs d) ip.inum ≠ 1) (stable : Careful fs.recycle ∨ (obs d).view 1 = (obs d).disk 1) :
    Meets (iupdate fs ip) d
      (fun _ d' => ∃ o, Drift fs.recycle (obs d) o ∧ o.view 1 = (obs d).view 1 ∧ obs d' = saved fs ip o) (fun _ => False) := by
  generalize table : tableOf fs (obs d) ip.inum = t at apart
  obtain ⟨d₁,o₁,ran₁,drift₁,locked₁⟩ := bread_drift (b := 1) fs.recycle (idle 1)
  have desc₁ : o₁.view 1 = (obs d).view 1 := drift₁.view_eq stable
  have free : (obs d₁).held t = false := by simp [locked₁,Obs.lock,update_of_ne apart,drift₁.held,idle]
  obtain ⟨d₂,o₂,ran₂,drift₂,locked₂⟩ := bread_drift (b := t) fs.recycle free
  rw [locked₁] at drift₂
  obtain ⟨o,drift,rfl⟩ := drift₂.of_lock
  have both := drift₁.trans drift
  have desc : o.view 1 = (obs d).view 1 := both.view_eq stable
  have place : tableOf fs o ip.inum = t := by rw [← table,tableOf_congr desc]
  have view : (obs d₂).view t = o.view t := by rw [locked₂]; rfl
  have found : tableBlock fs (groupDesc ((obs d₁).view 1).byte (32 * groupNo fs ip.inum)) ip.inum = t := by
    rw [← table,locked₁]
    exact congrArg (fun data : Block => tableBlock fs (groupDesc data.byte (32 * groupNo fs ip.inum)) ip.inum) desc₁
  refine .step ran₁ (.step (bdata_run (by simp [locked₁,Obs.lock])) (.step (descIn_run group _) ?_))
  rw [found]
  refine .step ran₂ (.step (bdata_run (by simp [locked₂,Obs.lock])) ?_)
  rw [view]
  obtain ⟨d₃,ran₃,put₃⟩ := bset_run (d := d₂) (b := t) (by simp [locked₂,Obs.lock])
    ((o.view t).patch (inodeOffset fs ip.inum) 128
      (inodeRecord ip (recordAt (o.view t) (inodeOffset fs ip.inum))).byte)
  obtain ⟨d₄,ran₄,flushed₄⟩ := bwrite_run (d := d₃) (b := t) (by simp [put₃,locked₂,Obs.lock,Obs.set])
  have held : (obs d₄).held 1 = true ∧ (obs d₄).held t = true := by
    simp [flushed₄,put₃,locked₂,Obs.lock,Obs.set,Obs.flush,update_of_ne apart.symm]
  obtain ⟨d₅,ran₅,released₅⟩ := brelse_run (d := d₄) (b := 1) held.1
  obtain ⟨d₆,ran₆,released₆⟩ := brelse_run (d := d₅) (b := t)
    (by simp [released₅,Obs.unlock,update_of_ne apart,held.2])
  refine .step ran₃ (.step ran₄ (.step ran₅ (.of_ok ran₆ ⟨o,both,desc,?_⟩)))
  rw [released₆,released₅,flushed₄,put₃,locked₂,Obs.flush_set_lock,saved,place]
  refine Obs.ext (by rfl) (by rfl) ?_ (by rfl)
  funext b
  simp only [Obs.lock,Obs.unlock,Obs.write,update_apply]
  split_ifs <;> simp [both.held,idle]

theorem iupdate_meets (careful : Careful fs.recycle) {d : Dev} (wf : Wf fs depth ip (obs d)) :
    Meets (iupdate fs ip) d (fun _ d' => obs d' = saved fs ip (obs d)) (fun _ => False) := by
  refine (iupdate_drift wf.group wf.idle wf.table_ne.1 (.inl careful)).mono ?_ (fun _ never => never)
  intro _ d' result
  obtain ⟨o,drift,-,after⟩ := result
  rw [after,drift.careful careful]

theorem maxFileBytes_toNat : maxFileBytes.toNat = 537919488 := by decide

private theorem sum_toNat {a b : UInt32} (fits : a.toNat + b.toNat < 2 ^ 32) : (a + b).toNat = a.toNat + b.toNat := by
  rw [UInt32.toNat_add,Nat.mod_eq_of_lt fits]

private theorem sum_wraps {a b : UInt32} (far : 2 ^ 32 ≤ a.toNat + b.toNat) : a + b < a := by
  have left := a.toNat_lt
  have right := b.toNat_lt
  rw [UInt32.lt_iff_toNat_lt,UInt32.toNat_add,Nat.mod_eq_sub_mod far,Nat.mod_eq_of_lt (by omega)]
  omega

theorem readi_refused (regular : ip.type ≠ .dev) {off n : UInt32} (dst : Nat → UInt8) (d : Dev)
    (bad : ip.size.toNat < off.toNat ∨ 2 ^ 32 ≤ off.toNat + n.toNat) :
    readi fs ip dst off n d = .ok ((minusOne,dst,ip),d) := by
  have refused : ip.size < off ∨ off + n < off := bad.imp UInt32.lt_iff_toNat_lt.mpr sum_wraps
  rw [readi,if_neg regular,if_pos refused]
  rfl

theorem readi_meets (careful : Careful fs.recycle) {d : Dev} (wf : Wf fs driverDepth ip (obs d))
    (regular : ip.type ≠ .dev) {off n : UInt32} (dst : Nat → UInt8) (start : off.toNat ≤ ip.size.toNat)
    (fits : off.toNat + n.toNat < 2 ^ 32) :
    Meets (readi fs ip dst off n) d
      (fun r d' => r.1.toNat = min n.toNat (ip.size.toNat - off.toNat) ∧
        r.2.1 = poke dst 0 r.1.toNat (fun j => content ip (obs d) (off.toNat + j)) ∧
        WasRead fs ip r.2.2 (obs d) (obs d') off.toNat r.1.toNat)
      (fun _ => ∃ x, off.toNat ≤ x ∧ x < off.toNat + n.toNat ∧ x < ip.size.toNat ∧
        Missing fs ip (obs d) off.toNat x) := by
  have accepted : ¬(ip.size < off ∨ off + n < off) := by
    rw [UInt32.lt_iff_toNat_lt,UInt32.lt_iff_toNat_lt,sum_toNat fits]
    omega
  rw [readi,if_neg regular,if_neg accepted]
  generalize count : (if ip.size < off + n then ip.size - off else n) = m
  have value : m.toNat = min n.toNat (ip.size.toNat - off.toNat) := by
    rw [← count]
    split_ifs with long
    · rw [UInt32.lt_iff_toNat_lt,sum_toNat fits] at long
      rw [UInt32.toNat_sub_of_le _ _ (UInt32.le_iff_toNat_le.mpr start)]
      omega
    · rw [UInt32.lt_iff_toNat_lt,sum_toNat fits] at long
      omega
  refine ((readLoop_meets careful m.toNat wf (Nat.sub_le _ _)).excuse ?_).bind ?_
  · rintro e ⟨x,lower,upper,missing⟩
    exact ⟨x,lower,by omega,by omega,missing⟩
  · rintro ⟨dst',ip'⟩ d' ⟨read,copied⟩
    exact .pure_intro ⟨value,copied,read⟩

theorem writei_refused (regular : ip.type ≠ .dev) {off n : UInt32} (src : Nat → UInt8) (d : Dev)
    (bad : ip.size.toNat < off.toNat ∨ maxFileBytes.toNat < off.toNat + n.toNat) :
    writei fs ip src off n d = .ok ((minusOne,ip),d) := by
  rw [writei,if_neg regular]
  by_cases refused : ip.size < off ∨ off + n < off
  · rw [if_pos refused]
    rfl
  · have short : ¬2 ^ 32 ≤ off.toNat + n.toNat := fun far => refused (.inr (sum_wraps far))
    have big : maxFileBytes < off + n := by
      rw [UInt32.lt_iff_toNat_lt,sum_toNat (by omega)]
      rcases bad with behind | long
      · exact absurd (.inl (UInt32.lt_iff_toNat_lt.mpr behind)) refused
      · exact long
    rw [if_neg refused,if_pos big]
    rfl

theorem writei_meets (careful : Careful fs.recycle) {d : Dev} (wf : Wf fs driverDepth ip (obs d))
    (regular : ip.type ≠ .dev) {off n : UInt32} (src : Nat → UInt8) (start : off.toNat ≤ ip.size.toNat)
    (fits : off.toNat + n.toNat ≤ maxFileBytes.toNat) :
    Meets (writei fs ip src off n) d
      (fun r d' => r.1 = n ∧ ∃ ip₁ o₁, Wrote fs ip ip₁ (obs d) o₁ off.toNat n.toNat src ∧
        if ip.size.toNat < off.toNat + n.toNat then
          r.2 = {ip₁ with size := off + n} ∧ obs d' = saved fs r.2 o₁
        else r.2 = ip₁ ∧ obs d' = o₁)
      (fun _ => ∃ x, off.toNat ≤ x ∧ x < off.toNat + n.toNat ∧ Missing fs ip (obs d) off.toNat x) := by
  rw [maxFileBytes_toNat] at fits
  have sum : (off + n).toNat = off.toNat + n.toNat := sum_toNat (by omega)
  have accepted : ¬(ip.size < off ∨ off + n < off) := by
    rw [UInt32.lt_iff_toNat_lt,UInt32.lt_iff_toNat_lt,sum]
    omega
  have small : ¬maxFileBytes < off + n := by
    rw [UInt32.lt_iff_toNat_lt,sum,maxFileBytes_toNat]
    omega
  rw [writei,if_neg regular,if_neg accepted,if_neg small]
  refine ((writeLoop_meets careful n.toNat wf (Nat.sub_le _ _)).bind ?_)
  intro ip₁ d₁ wrote
  simp only [Nat.zero_add,Nat.sub_zero] at wrote
  have size : ip₁.size = ip.size := by rw [wrote.evolved.inode]
  by_cases grows : ip.size.toNat < off.toNat + n.toNat
  · have test : 0 < n ∧ ip₁.size < off + n := by
      rw [UInt32.lt_iff_toNat_lt,UInt32.lt_iff_toNat_lt,sum,size]
      exact ⟨show 0 < n.toNat by omega,grows⟩
    rw [if_pos test]
    have wf₁ : Wf fs driverDepth {ip₁ with size := off + n} (obs d₁) := wrote.evolved.wf.retag rfl rfl
    refine ((iupdate_meets careful wf₁).excuse (fun _ => False.elim)).bind ?_
    intro _ d₂ stored
    refine .pure_intro ⟨rfl,ip₁,obs d₁,wrote,?_⟩
    rw [if_pos grows]
    exact ⟨rfl,stored⟩
  · have test : ¬(0 < n ∧ ip₁.size < off + n) := by
      rw [UInt32.lt_iff_toNat_lt,UInt32.lt_iff_toNat_lt,sum,size]
      exact fun both => grows both.2
    rw [if_neg test]
    refine .pure_intro ⟨rfl,ip₁,obs d₁,wrote,?_⟩
    rw [if_neg grows]
    exact ⟨rfl,rfl⟩

end

end Xv6Ext2.Ext2
