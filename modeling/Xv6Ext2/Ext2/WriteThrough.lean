import Xv6Ext2.Ext2.Directory

/-! The inode cache is write-through: when a call on an inode returns, the record on disk has the
size, the link count and the block pointers of the cached inode, as long as no call fills an empty
pointer of the inode and then leaves it unsaved. -/
namespace Xv6Ext2.Ext2
open Lib Bio Function

def diskRecord (fs : Mount) (inum : UInt32) (o : Obs) : Bytes 128 :=
  recordAt (o.disk (tableOf fs o inum)) (inodeOffset fs inum)

structure Synced (fs : Mount) (ip : Inode) (o : Obs) : Prop where
  clean : o.view (tableOf fs o ip.inum) = o.disk (tableOf fs o ip.inum)
  mode : ∀ old, modeType (u16 (diskRecord fs ip.inum o).byte 0) old = ip.type
  nlink : u16 (diskRecord fs ip.inum o).byte 26 = ip.nlink
  size : u32 (diskRecord fs ip.inum o).byte 4 = ip.size
  addrs : ∀ k : Fin 15, u32 (diskRecord fs ip.inum o).byte (40 + 4 * k.val) = ip.addrs k

section

variable {fs : Mount} {ip ip' : Inode} {o o' : Obs} {d : Dev}

theorem inodeOffset_fits (fs : Mount) (inum : UInt32) : inodeOffset fs inum + 128 ≤ bsize := by
  have large := fs.inodeSize_ge
  have small := fs.inodeSize_le
  generalize count : bsize / fs.exs.inodeSize.toNat = n
  have positive : 0 < n := by
    rw [← count]
    exact Nat.div_pos small (by omega)
  have below : (inum - 1).toNat % fs.exs.inodesPerGroup.toNat % n + 1 ≤ n := Nat.mod_lt _ positive
  have scaled := Nat.mul_le_mul_right fs.exs.inodeSize.toNat below
  have total : n * fs.exs.inodeSize.toNat ≤ bsize := by
    rw [← count]
    exact Nat.div_mul_le_self _ _
  rw [Nat.add_mul,Nat.one_mul] at scaled
  rw [inodeOffset,count]
  omega

theorem recordAt_patch (data : Block) {off : Nat} (record : Bytes 128) (fits : off + 128 ≤ bsize) :
    recordAt (data.patch off 128 record.byte) off = record := by
  funext i
  rw [recordAt,Bytes.byte_patch_inside _ _ _ _ _ i.isLt fits,Bytes.byte,dif_pos i.isLt]

theorem inodeRecord_size (ip : Inode) (old : Bytes 128) : u32 (inodeRecord ip old).byte 4 = ip.size := by
  simp (disch := omega) only [inodeRecord,fillExt2Fields,Bytes.setU32,Bytes.setU16,Bytes.u32_patch_outside]
  exact Bytes.u32_setU32 _ 4 _ (by omega)

theorem inodeRecord_nlink (ip : Inode) (old : Bytes 128) : u16 (inodeRecord ip old).byte 26 = ip.nlink := by
  simp (disch := omega) only [inodeRecord,fillExt2Fields,Bytes.setU32,Bytes.setU16,Bytes.u16_patch_outside]
  exact Bytes.u16_setU16 _ 26 _ (by omega)

theorem inodeRecord_addrs (ip : Inode) (old : Bytes 128) (k : Fin 15) :
    u32 (inodeRecord ip old).byte (40 + 4 * k.val) = ip.addrs k := by
  have small := k.isLt
  refine u32_stored _ _ _ (fun i bound => ?_)
  rw [inodeRecord,Nat.add_assoc,Bytes.byte_patch_inside _ _ _ _ _ (by omega) (by omega),
    show (4 * k.val + i) / 4 = k.val by omega,show (4 * k.val + i) % 4 = i by omega]
  congr 3
  exact Fin.ext (Nat.mod_eq_of_lt small)

theorem inodeRecord_mode (ip : Inode) (old : Bytes 128) (kind : ip.type = .dir ∨ ip.type = .file) (stale : FileType) :
    modeType (u16 (inodeRecord ip old).byte 0) stale = ip.type := by
  simp (disch := omega) only [inodeRecord,fillExt2Fields,Bytes.setU32,Bytes.u16_patch_outside]
  rcases kind with dir | file
  · simp (disch := omega) only [dir,Bytes.setU16,Bytes.u16_patch_outside]
    rw [show u16 ((old.patch 0 2 _).byte) 0 = 0o040000 from Bytes.u16_setU16 _ 0 _ (by omega)]
    rfl
  · simp (disch := omega) only [file,Bytes.setU16,Bytes.u16_patch_outside]
    rw [show u16 ((old.patch 0 2 _).byte) 0 = 0o100000 from Bytes.u16_setU16 _ 0 _ (by omega)]
    rfl

theorem synced_saved (wf : Wf fs driverDepth ip o) (kind : ip.type = .dir ∨ ip.type = .file) :
    Synced fs ip (saved fs ip o) := by
  have table : tableOf fs (saved fs ip o) ip.inum = tableOf fs o ip.inum :=
    tableOf_congr (update_of_ne wf.table_ne.1.symm _ _) _
  have record : diskRecord fs ip.inum (saved fs ip o) =
      inodeRecord ip (recordAt (o.view (tableOf fs o ip.inum)) (inodeOffset fs ip.inum)) := by
    rw [diskRecord,table]
    simp only [saved,Obs.write,update_self]
    exact recordAt_patch _ _ (inodeOffset_fits _ _)
  refine ⟨?_,?_,?_,?_,?_⟩
  · rw [table]
    simp only [saved,Obs.write,update_self]
  · rw [record]
    exact inodeRecord_mode ip _ kind
  · rw [record]
    exact inodeRecord_nlink ip _
  · rw [record]
    exact inodeRecord_size ip _
  · rw [record]
    exact inodeRecord_addrs ip _

theorem Evolved.synced (evolved : Evolved fs driverDepth ip ip o o') (wf : Wf fs driverDepth ip o)
    (synced : Synced fs ip o) : Synced fs ip o' := by
  have table : tableOf fs o' ip.inum = tableOf fs o ip.inum := tableOf_congr (evolved.desc_view wf.bitmap_ne) _
  have same := evolved.outside (tableOf fs o ip.inum) wf.table_ne.2 (fun σ within there => by
    rw [← table]
    exact evolved.wf.table_apart σ within there)
  have record : diskRecord fs ip.inum o' = diskRecord fs ip.inum o := by
    rw [diskRecord,diskRecord,table,same.2]
  refine ⟨?_,?_,?_,?_,?_⟩
  · rw [table,same.1,same.2]
    exact synced.clean
  all_goals rw [record]
  · exact synced.mode
  · exact synced.nlink
  · exact synced.size
  · exact synced.addrs

end

structure Sound (fs : Mount) (ip : Inode) (d : Dev) : Prop where
  kind : ip.type = .dir ∨ ip.type = .file
  wf : Wf fs driverDepth ip (obs d)
  synced : Synced fs ip (obs d)

def Rooted (ip : Inode) (low high : Nat) : Prop :=
  ∀ x, low ≤ x → x < high → ip.addrs (driverSlot (x / bsize)).root ≠ 0

section

variable {fs : Mount} {ip dp : Inode} {d : Dev} {off n : UInt32}

theorem Sound.not_dev (sound : Sound fs ip d) : ip.type ≠ .dev := by
  rcases sound.kind with kind | kind <;> rw [kind] <;> decide

variable (careful : Careful fs.recycle)

include careful

theorem iupdate_sound (kind : ip.type = .dir ∨ ip.type = .file)
    (wf : Wf fs driverDepth ip (obs d)) : Meets (iupdate fs ip) d (fun _ d' => Sound fs ip d') (fun _ => True) := by
  refine (iupdate_meets careful wf).mono ?_ (fun _ => False.elim)
  intro _ d' stored
  refine ⟨kind,?_,?_⟩ <;> rw [stored]
  · exact wf.saved
  · exact synced_saved wf kind

theorem readRecord_sound (sound : Sound fs dp d) (rooted : Rooted dp 0 dp.size.toNat) (de : Memory) (message : String) :
    Meets (readRecord fs dp de off message) d
      (fun r d' => r = (poke de 0 264 (fun j => content dp (obs d) (off.toNat + j)),dp) ∧
        off.toNat + 264 ≤ dp.size.toNat ∧ Sound fs dp d' ∧ content dp (obs d') = content dp (obs d))
      (fun _ => True) := by
  have count : direntSize.toNat = 264 := rfl
  by_cases bad : dp.size.toNat < off.toNat ∨ 2 ^ 32 ≤ off.toNat + direntSize.toNat
  · refine .step (readi_refused sound.not_dev de d bad) ?_
    dsimp only
    rw [if_neg (show ¬minusOne = direntSize by decide)]
    exact .of_error rfl trivial
  · rw [not_or] at bad
    refine ((readi_meets careful sound.wf sound.not_dev de (by omega) (by omega)).excuse (fun _ _ => trivial)).bind ?_
    rintro ⟨got,de',dp'⟩ d' ⟨length,copied,read⟩
    dsimp only at length copied read ⊢
    by_cases whole : got = direntSize
    · rw [if_pos whole]
      rw [whole,count] at length copied
      rw [whole] at read
      obtain rfl : dp' = dp := read.root_kept (fun x _ upper => rooted x (Nat.zero_le _) (by omega))
      refine .pure_intro ⟨by rw [copied],by omega,⟨sound.kind,read.grown.wf,?_⟩,funext read.grown.content_eq⟩
      exact read.grown.toEvolved.synced sound.wf sound.synced
    · rw [if_neg whole]
      exact .of_error rfl trivial

theorem writei_sound (sound : Sound fs ip d) (src : Nat → UInt8)
    (covered : ip.size.toNat < off.toNat + n.toNat ∨ Rooted ip off.toNat (off.toNat + n.toNat)) :
    Meets (writei fs ip src off n) d
      (fun r d' => Sound fs r.2 d' ∧ r.2.major = ip.major ∧ (off.toNat + n.toNat ≤ ip.size.toNat → r.2 = ip))
      (fun _ => True) := by
  by_cases bad : ip.size.toNat < off.toNat ∨ maxFileBytes.toNat < off.toNat + n.toNat
  · exact .of_ok (writei_refused sound.not_dev src d bad) ⟨sound,rfl,fun _ => rfl⟩
  · rw [not_or] at bad
    refine (writei_meets careful sound.wf sound.not_dev src (by omega) (by omega)).mono ?_ (fun _ _ => trivial)
    rintro ⟨got,ip'⟩ d' ⟨-,ip₁,o₁,wrote,finish⟩
    have kind₁ : ip₁.type = .dir ∨ ip₁.type = .file := by
      rw [wrote.evolved.inode]
      exact sound.kind
    by_cases grows : ip.size.toNat < off.toNat + n.toNat
    · rw [if_pos grows] at finish
      obtain ⟨rfl,stored⟩ := finish
      have wf₁ : Wf fs driverDepth {ip₁ with size := off + n} o₁ := wrote.evolved.wf.retag rfl rfl
      refine ⟨⟨kind₁,?_,?_⟩,by rw [wrote.evolved.inode],fun inside => by omega⟩ <;> rw [stored]
      · exact wf₁.saved
      · exact synced_saved wf₁ kind₁
    · rw [if_neg grows] at finish
      obtain ⟨rfl,rfl⟩ := finish
      obtain rfl : ip' = ip := wrote.root_kept (covered.resolve_left grows)
      exact ⟨⟨sound.kind,wrote.evolved.wf,wrote.evolved.synced sound.wf sound.synced⟩,rfl,fun _ => rfl⟩

theorem writeRecord_sound (sound : Sound fs dp d) (de : Memory) (message : String)
    (covered : dp.size.toNat < off.toNat + n.toNat ∨ Rooted dp off.toNat (off.toNat + n.toNat)) :
    Meets (writeRecord fs dp de off n message) d
      (fun dp' d' => Sound fs dp' d' ∧ dp'.major = dp.major ∧ (off.toNat + n.toNat ≤ dp.size.toNat → dp' = dp))
      (fun _ => True) := by
  refine (writei_sound careful sound de covered).bind ?_
  rintro ⟨got,dp'⟩ d' written
  dsimp only at written ⊢
  split_ifs
  · exact .pure_intro written
  · exact .of_error rfl trivial

theorem lookupLoop_sound (sound : Sound fs dp d) (rooted : Rooted dp 0 dp.size.toNat)
    (name : Memory) (fuel : Nat) (off : UInt32) (de fname : Memory) :
    Meets (lookupLoop fs name fuel dp off de fname) d
      (fun r d' => r.2 = dp ∧ Sound fs dp d' ∧ content dp (obs d') = content dp (obs d)) (fun _ => True) := by
  induction fuel generalizing off de fname d with
  | zero =>
    rw [lookupLoop]
    split_ifs
    · exact .of_error rfl trivial
    · exact .pure_intro ⟨rfl,sound,rfl⟩
  | succ fuel ih =>
    rw [lookupLoop]
    split_ifs with more
    · refine (readRecord_sound careful sound rooted de _).bind ?_
      rintro ⟨de₁,dp₁⟩ d₁ ⟨result,-,sound₁,same⟩
      obtain ⟨-,rfl⟩ := Prod.mk.inj result
      have rest (de fname : Memory) : Meets (lookupLoop fs name fuel dp₁ (off + Dirent.recLen de₁) de fname) d₁
          (fun r d' => r.2 = dp₁ ∧ Sound fs dp₁ d' ∧ content dp₁ (obs d') = content dp₁ (obs d)) (fun _ => True) :=
        (ih sound₁ _ de fname).mono (fun _ _ post => ⟨post.1,post.2.1,post.2.2.trans same⟩) (fun _ _ => trivial)
      dsimp only
      split_ifs
      · exact rest _ _
      · exact .pure_intro ⟨rfl,sound₁,same⟩
      · exact rest _ _
    · exact .pure_intro ⟨rfl,sound,rfl⟩

/-- The search of `ext2_dirlink` from `off` on finds no record with space behind it and ends at `stop`. -/
inductive FullTo (bytes : Memory) (size : UInt32) : UInt32 → UInt32 → Prop where
  | done {off : UInt32} (behind : ¬off < size) : FullTo bytes size off off
  | next {off stop : UInt32} (inside : off < size)
      (tight : ¬(264 < (u16 bytes (off.toNat + 4)).toNat ∧ (u16 bytes (off.toNat + 4)).toNat = bsize - off.toNat % bsize))
      (rest : FullTo bytes size (off + (u16 bytes (off.toNat + 4)).toUInt32) stop) : FullTo bytes size off stop

omit careful in
private theorem recLen_read (de bytes : Memory) (off : Nat) :
    Dirent.recLen (poke de 0 264 (fun j => bytes (off + j))) = (u16 bytes (off + 4)).toUInt32 := by
  rw [Dirent.recLen]
  refine congrArg _ (u16_congr _ _ _ _ (fun i bound => ?_))
  have inside := poke_inside de 0 264 (fun j => bytes (off + j)) (show 4 + i < 264 by omega)
  rw [Nat.zero_add] at inside
  rw [inside,Nat.add_assoc]

theorem cutRecord_sound (sound : Sound fs dp d) (rooted : Rooted dp 0 dp.size.toNat)
    (de : Memory) (inside : off.toNat + 264 ≤ dp.size.toNat) :
    Meets (cutRecord fs dp off de) d
      (fun r d' => r.2.2 = dp ∧ Sound fs dp d' ∧ r.1.toNat + 264 ≤ dp.size.toNat) (fun _ => True) := by
  have count : direntSize.toNat = 264 := rfl
  refine (writeRecord_sound careful sound _ _ (.inr (fun x _ upper => rooted x (Nat.zero_le _) (by omega)))).bind ?_
  rintro dp₁ d₁ ⟨sound₁,-,same⟩
  obtain rfl := same (by omega)
  refine (readRecord_sound careful sound₁ rooted _ _).bind ?_
  rintro ⟨de₂,dp₂⟩ d₂ ⟨result,fits,sound₂,-⟩
  obtain ⟨-,rfl⟩ := Prod.mk.inj result
  exact .pure_intro ⟨rfl,sound₂,fits⟩

theorem spaceLoop_sound (sound : Sound fs dp d) (rooted : Rooted dp 0 dp.size.toNat) (fuel : Nat) (off : UInt32) (de : Memory) :
    Meets (spaceLoop fs fuel dp off de) d
      (fun r d' => r.2.2 = dp ∧ Sound fs dp d' ∧
        (r.1.toNat + 264 ≤ dp.size.toNat ∨ FullTo (content dp (obs d)) dp.size off r.1)) (fun _ => True) := by
  induction fuel generalizing off de d with
  | zero =>
    rw [spaceLoop]
    split_ifs with more
    · exact .of_error rfl trivial
    · exact .pure_intro ⟨rfl,sound,.inr (.done more)⟩
  | succ fuel ih =>
    rw [spaceLoop]
    split_ifs with more
    · refine (readRecord_sound careful sound rooted de _).bind ?_
      rintro ⟨de₁,dp₁⟩ d₁ ⟨result,fits,sound₁,same⟩
      obtain ⟨read,rfl⟩ := Prod.mk.inj result
      have length := recLen_read de (content dp₁ (obs d)) off.toNat
      rw [← read] at length
      dsimp only
      split_ifs with space
      · refine (cutRecord_sound careful sound₁ rooted _ fits).mono ?_ (fun _ _ => trivial)
        exact fun _ _ post => ⟨post.1,post.2.1,.inl post.2.2⟩
      · rw [length] at space ⊢
        refine (ih sound₁ _ _).mono ?_ (fun _ _ => trivial)
        rintro r d' ⟨kept,sound',found⟩
        rw [same] at found
        refine ⟨kept,sound',found.imp_right (.next more ?_)⟩
        rwa [UInt32.lt_iff_toNat_lt,UInt16.toNat_toUInt32] at space
    · exact .pure_intro ⟨rfl,sound,.inr (.done more)⟩

theorem resize_sound (sound : Sound fs dp d) (size : UInt32) :
    Meets (resize fs dp size) d
      (fun dp' d' => dp' = {dp with size := size} ∧ Sound fs dp' d') (fun _ => True) := by
  have wf : Wf fs driverDepth {dp with size := size} (obs d) := sound.wf.retag rfl rfl
  have kind : ({dp with size := size} : Inode).type = .dir ∨ ({dp with size := size} : Inode).type = .file := sound.kind
  refine (iupdate_sound careful kind wf).bind ?_
  intro _ d' sound'
  exact .pure_intro ⟨rfl,sound'⟩

private theorem storeRecord_sound (sound : Sound fs dp d) (de : Memory)
    (size n : UInt32) (message : String) (rooted : Rooted dp off.toNat (off.toNat + n.toNat)) :
    Meets (do
        let dp ← resize fs dp size
        writeRecord fs dp de off n message) d
      (fun dp' d' => Sound fs dp' d' ∧ dp'.major = dp.major) (fun _ => True) := by
  refine (resize_sound careful sound size).bind ?_
  rintro dp₁ d₁ ⟨rfl,sound₁⟩
  exact (writeRecord_sound careful sound₁ de message (.inr rooted)).mono (fun _ _ post => ⟨post.1,post.2.1⟩)
    (fun _ _ => trivial)

theorem insertRecord_sound (sound : Sound fs dp d) (de : Memory) (rooted : dp.addrs (driverSlot (off.toNat / bsize)).root ≠ 0) :
    Meets (insertRecord fs dp off de) d (fun dp' d' => Sound fs dp' d' ∧ dp'.major = dp.major) (fun _ => True) := by
  refine storeRecord_sound careful sound _ _ _ _ ?_
  intro x lower upper
  have low : off.toNat % bsize < bsize := Nat.mod_lt _ (by decide)
  rw [Dirent.recLen_setRecLen _ (show bsize - off.toNat % bsize < 65536 by simp only [bsize]; omega)] at upper
  have block : x / bsize = off.toNat / bsize := by
    simp only [bsize] at upper low ⊢
    omega
  rw [block]
  exact rooted

omit careful in
private theorem fillRecord_keeps (de name : Memory) (inum : UInt32) (d : Dev) :
    Meets (fillRecord de name inum) d (fun _ d' => d' = d) (fun _ => True) := by
  simp only [fillRecord]
  split
  · exact .pure_intro rfl
  · exact .of_error rfl trivial

theorem dirlink_sound (sound : Sound fs dp d) (rooted : Rooted dp 0 dp.size.toNat)
    (tail : ∀ stop, FullTo (content dp (obs d)) dp.size 0 stop → Rooted dp stop.toNat (stop.toNat + 264))
    (name : Memory) (inum : UInt32) (de lookupDe lookupName : Memory) :
    Meets (dirlink fs dp name inum de lookupDe lookupName) d
      (fun r d' => Sound fs r.2 d' ∧ r.2.major = dp.major) (fun _ => True) := by
  refine (lookupLoop_sound careful sound rooted name _ 0 lookupDe lookupName).bind ?_
  rintro ⟨found,dp₁⟩ d₁ ⟨kept,sound₁,same⟩
  obtain rfl : dp₁ = dp := kept
  cases found with
  | some hit =>
    dsimp only
    split_ifs
    · exact .of_error rfl trivial
    · exact .pure_intro ⟨sound₁,rfl⟩
  | none =>
    refine (spaceLoop_sound careful sound₁ rooted _ 0 de).bind ?_
    rintro ⟨off,de₂,dp₂⟩ d₂ ⟨kept₂,sound₂,place⟩
    obtain rfl : dp₂ = dp₁ := kept₂
    rw [same] at place
    dsimp only at place ⊢
    refine (fillRecord_keeps de₂ name inum d₂).bind ?_
    rintro de₃ d₃ rfl
    have here : Rooted dp₂ off.toNat (off.toNat + 264) := by
      rcases place with inside | full
      · exact fun x lower upper => rooted x (Nat.zero_le _) (by omega)
      · exact tail off full
    split_ifs
    · refine (storeRecord_sound careful sound₂ _ _ _ _ here).bind ?_
      exact fun _ _ post => .pure_intro post
    · refine (insertRecord_sound careful sound₂ _ (here _ (Nat.le_refl _) (by omega))).bind ?_
      exact fun _ _ post => .pure_intro post

theorem unlink_sound (sound : Sound fs dp d) (rooted : Rooted dp 0 dp.size.toNat) (off : UInt32) (de de1 : Memory) :
    Meets (unlink fs dp off de de1) d (fun dp' d' => Sound fs dp' d' ∧ dp'.major = dp.major) (fun _ => True) := by
  refine (readRecord_sound careful sound rooted de1 _).bind ?_
  rintro ⟨de₁,dp₁⟩ d₁ ⟨result,fits,sound₁,-⟩
  obtain ⟨-,rfl⟩ := Prod.mk.inj result
  refine (writeRecord_sound careful sound₁ _ _ ?_).mono (fun _ _ post => ⟨post.1,post.2.1⟩) (fun _ _ => trivial)
  by_cases grows : dp₁.size.toNat < off.toNat + (Dirent.recLen de₁).toNat
  · exact .inl grows
  · exact .inr (fun x _ upper => rooted x (Nat.zero_le _) (by omega))

theorem ilock_reloads (sound : Sound fs ip d) (major : ip.major = 0) {slot : Inode}
    (number : slot.inum = ip.inum) : ∃ d', ilock fs slot d = .ok (ip,d') := by
  obtain ⟨d₁,ran₁,locked₁⟩ := bread_run (b := 1) (careful d) (sound.wf.idle 1)
  obtain ⟨d₂,ran₂,released₂⟩ := brelse_run (d := d₁) (b := 1) (by simp [locked₁,Obs.lock])
  rw [locked₁,Obs.unlock_lock _ _ (sound.wf.idle 1)] at released₂
  have view : (obs d₁).view 1 = (obs d).view 1 := by rw [locked₁]; rfl
  generalize table : tableOf fs (obs d) ip.inum = t
  have found : tableBlock fs (groupDesc ((obs d₁).view 1).byte (32 * groupNo fs ip.inum)) ip.inum = t := by
    rw [← table,view]
    rfl
  have free : (obs d₂).held t = false := by rw [released₂]; exact sound.wf.idle t
  obtain ⟨d₃,ran₃,locked₃⟩ := bread_run (b := t) (careful d₂) free
  obtain ⟨d₄,ran₄,-⟩ := brelse_run (d := d₃) (b := t) (by simp [locked₃,Obs.lock])
  have record : recordAt ((obs d₃).view t) (inodeOffset fs ip.inum) = diskRecord fs ip.inum (obs d) := by
    rw [diskRecord,← sound.synced.clean,table,locked₃,released₂]
    rfl
  refine ⟨d₄,?_⟩
  rw [ilock,bind_ok ran₁,bind_ok (bdata_run (by simp [locked₁,Obs.lock])),number,bind_ok (descIn_run sound.wf.group _),
    bind_ok ran₂]
  dsimp only
  rw [found,bind_ok ran₃,bind_ok (bdata_run (by simp [locked₃,Obs.lock])),bind_ok ran₄,record,sound.synced.mode,
    sound.synced.nlink,sound.synced.size,funext sound.synced.addrs,← major,if_neg]
  · rfl
  · rcases sound.kind with kind | kind <;> rw [kind] <;> decide

end

inductive InodeOp where
  | write (src : Memory) (off n : UInt32)
  | link (name : Memory) (inum : UInt32) (de lookupDe lookupName : Memory)
  | unlink (off : UInt32) (de de1 : Memory)
  | links (nlink : UInt16)

def InodeOp.run (fs : Mount) (ip : Inode) : InodeOp → K Inode
  | .write src off n => do
    let (_,ip) ← writei fs ip src off n
    return ip
  | .link name inum de lookupDe lookupName => do
    let (_,ip) ← dirlink fs ip name inum de lookupDe lookupName
    return ip
  | .unlink off de de1 => Ext2.unlink fs ip off de de1
  | .links nlink => do
    let ip := {ip with nlink := nlink}
    iupdate fs ip
    return ip

/-- The call fills no empty pointer of the inode after the last `ext2_iupdate` it makes: a write makes
the file longer, or its range has pointers; a directory has the pointers of all its blocks, and of the
block in which a record that fits nowhere else begins. -/
def InodeOp.Saves (ip : Inode) (d : Dev) : InodeOp → Prop
  | .write _ off n => ip.size.toNat < off.toNat + n.toNat ∨ Rooted ip off.toNat (off.toNat + n.toNat)
  | .link _ _ _ _ _ => Rooted ip 0 ip.size.toNat ∧
      ∀ stop, FullTo (content ip (obs d)) ip.size 0 stop → Rooted ip stop.toNat (stop.toNat + 264)
  | .unlink _ _ _ => Rooted ip 0 ip.size.toNat
  | .links _ => True

inductive Reaches (fs : Mount) (ip : Inode) (d : Dev) : Inode → Dev → Prop where
  | start : Reaches fs ip d ip d
  | call {ip₁ ip₂ : Inode} {d₁ d₂ : Dev} (before : Reaches fs ip d ip₁ d₁) (op : InodeOp) (saves : op.Saves ip₁ d₁)
      (ran : op.run fs ip₁ d₁ = .ok (ip₂,d₂)) : Reaches fs ip d ip₂ d₂

theorem InodeOp.run_sound {fs : Mount} (careful : Careful fs.recycle) {ip : Inode} {d : Dev} (sound : Sound fs ip d)
    (op : InodeOp) (saves : op.Saves ip d) :
    Meets (op.run fs ip) d (fun ip' d' => Sound fs ip' d' ∧ ip'.major = ip.major) (fun _ => True) := by
  cases op with
  | write src off n =>
    refine (writei_sound careful sound src saves).bind ?_
    exact fun _ _ post => .pure_intro ⟨post.1,post.2.1⟩
  | link name inum de lookupDe lookupName =>
    refine (dirlink_sound careful sound saves.1 saves.2 name inum de lookupDe lookupName).bind ?_
    exact fun _ _ post => .pure_intro post
  | unlink off de de1 => exact unlink_sound careful sound saves off de de1
  | links nlink =>
    have wf : Wf fs driverDepth {ip with nlink := nlink} (obs d) := sound.wf.retag rfl rfl
    have kind : ({ip with nlink := nlink} : Inode).type = .dir ∨ ({ip with nlink := nlink} : Inode).type = .file :=
      sound.kind
    refine (iupdate_sound careful kind wf).bind ?_
    exact fun _ _ sound' => .pure_intro ⟨sound',rfl⟩

/-- After any run of such calls the record on disk is that of the cached inode, and `ext2_ilock` of a
new cache entry, whatever it held before, loads the same inode. -/
theorem inode_write_through {fs : Mount} (careful : Careful fs.recycle) {ip ip' : Inode} {d d' : Dev}
    (sound : Sound fs ip d) (major : ip.major = 0) (run : Reaches fs ip d ip' d') :
    Synced fs ip' (obs d') ∧ ∀ slot : Inode, slot.inum = ip'.inum → ∃ d'', ilock fs slot d' = .ok (ip',d'') := by
  have good : Sound fs ip' d' ∧ ip'.major = 0 := by
    induction run with
    | start => exact ⟨sound,major⟩
    | call before op saves ran ih =>
      obtain ⟨sound₁,major₁⟩ := ih
      obtain ⟨sound₂,same⟩ := (op.run_sound careful sound₁ saves).result ran
      exact ⟨sound₂,same.trans major₁⟩
  exact ⟨good.1.synced,fun _ number => ilock_reloads careful good.1 good.2 number⟩

/-- A byte written to a new file that `create` has saved. -/
theorem write_through_first_byte : ∃ ip d d',
    Sound stillMount (newInode 1 .file) d ∧
    Reaches stillMount (newInode 1 .file) d ip d' ∧ Synced stillMount ip (obs d') ∧
    ∀ slot : Inode, slot.inum = ip.inum → ∃ d'', ilock stillMount slot d' = .ok (ip,d'') := by
  obtain ⟨_,d,ran,stored⟩ := (iupdate_meets never_careful (bare_wf (fun _ _ => false) driverDepth .file)).returns (fun _ => id)
  have sound := (iupdate_sound never_careful (.inr rfl) (bare_wf (fun _ _ => false) driverDepth .file)).result ran
  have outcome : probe (iupdate stillMount (newInode 1 .file) >>= fun _ =>
      (InodeOp.write (fun _ => 7) 0 1).run stillMount (newInode 1 .file)) (cold bare)
      (fun ip _ => some ip.size) = some 1 := by decide +kernel
  obtain ⟨ip,d',wrote,-⟩ := probe_eq_some outcome
  rw [bind_ok ran] at wrote
  have grows : (InodeOp.write (fun _ => 7) 0 1).Saves (newInode 1 .file) d := Or.inl (by decide)
  have run : Reaches stillMount (newInode 1 .file) d ip d' := .call .start _ grows wrote
  exact ⟨ip,d,d',sound,run,inode_write_through never_careful sound rfl run⟩

/-- The entry `.` that `create` makes in a new directory: the block it gets is in the cached inode
only, and `ext2_ilock` loads a directory whose block is missing. -/
theorem dirlink_leaves_pointer_unsaved :
    Wf stillMount driverDepth (newInode 1 .dir) (obs (cold bare)) ∧
    ∃ ip d reloaded d',
      ((InodeOp.links 1).run stillMount (newInode 1 .dir) >>= fun ip =>
        (InodeOp.link (cstring [46]) 1 (fun _ => 0) (fun _ => 0) (fun _ => 0)).run stillMount ip)
          (cold bare) = .ok (ip,d) ∧
      ip.addrs 0 = 5 ∧ u32 (diskRecord stillMount 1 (obs d)).byte 40 = 0 ∧
      ilock stillMount ip d = .ok (reloaded,d') ∧ reloaded.addrs 0 = 0 := by
  refine ⟨bare_wf _ _ _,?_⟩
  have outcome : probe ((InodeOp.links 1).run stillMount (newInode 1 .dir) >>= fun ip =>
      (InodeOp.link (cstring [46]) 1 (fun _ => 0) (fun _ => 0) (fun _ => 0)).run stillMount ip)
      (cold bare) (fun ip d => probe (ilock stillMount ip) d (fun reloaded _ =>
        some (ip.addrs 0,u32 (diskRecord stillMount 1 (obs d)).byte 40,reloaded.addrs 0))) =
      some (5,0,0) := by decide +kernel
  obtain ⟨ip,d,ran,seen⟩ := probe_eq_some outcome
  obtain ⟨reloaded,d',loaded,values⟩ := probe_eq_some seen
  simp only [Option.some.injEq,Prod.mk.injEq] at values
  exact ⟨ip,d,reloaded,d',ran,values.1,values.2.1,loaded,values.2.2⟩

end Xv6Ext2.Ext2
