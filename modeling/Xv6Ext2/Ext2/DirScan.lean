import Xv6Ext2.Ext2.DirSafety
import Xv6Ext2.Lib.Scan

/-! The loops of `ext2_dirlookup`, `ext2_dirlink` and `ext2_isdirempty` over a directory with any bytes in it: when they
come to an end. -/
namespace Xv6Ext2.Ext2
open Lib Bio Function

def recAt (bytes : Memory) (off : Nat) : Rec :=
  ⟨u32 bytes off,(List.range (bytes (off + 6)).toNat).map fun i => bytes (off + 8 + i),(u16 bytes (off + 4)).toNat⟩

theorem recAt_at (bytes : Memory) (off : Nat) : (recAt bytes off).At bytes off where
  inode := rfl
  recLen := rfl
  nameLen := by simp [recAt]
  name i inside := by
    simp only [recAt,List.length_map,List.length_range] at inside ⊢
    simp [cstring,List.getD_eq_getElem?_getD,inside]

structure Seen (dp : Inode) (o : Obs) (off : Nat) (de : Memory) : Prop where
  inside : off + 264 ≤ dp.size.toNat
  bytes : ∀ j < 264, de j = content dp o (off + j)

/-- A loop of the driver over the records: it reads a record and ends, or goes on behind it. -/
structure RecordLoop {α β : Type} (fs : Mount) (dp : Inode) (o : Obs) (message : String) (stop : Nat → Prop)
    (loop : Nat → UInt32 → α → K β) (buf : α → Memory) (body : Nat → UInt32 → α → Memory × Inode → K β) : Prop where
  past : ∀ fuel off s d, ¬off < dp.size → loop fuel off s d ≠ .error .diverges
  starved : ∀ off s d, off < dp.size → loop 0 off s d = .error .diverges
  round : ∀ fuel off s, off < dp.size → loop (fuel + 1) off s = (readRecord fs dp (buf s) off message >>= body fuel off s)
  stops : ∀ fuel off s de d, Seen dp o off.toNat de → obs d = o → stop off.toNat → body fuel off s (de,dp) d ≠ .error .diverges
  goes : ∀ off s de, Seen dp o off.toNat de → ¬stop off.toNat → ∃ s', ∀ fuel, body fuel off s (de,dp) = loop fuel (off + Dirent.recLen de) s'

/-- The loop ends at `off`: 264 bytes are no longer left, or it has found what it looks for. -/
def Ends (size : Nat) (stop : Nat → Prop) (off : Nat) : Prop := size < off + 264 ∨ stop off

/-- The `rec_len` at an offset. -/
def recLenAt (bytes : Memory) (off : Nat) : Nat := (recAt bytes off).len

section

variable {fs : Mount} {dp : Inode} {o : Obs} {d : Dev} {off : UInt32} {de : Memory}

theorem Seen.stored (seen : Seen dp o off.toNat de) : (recAt (content dp o) off.toNat).At de 0 :=
  (recAt_at _ _).read seen.bytes

theorem Dense.read (careful : Careful fs.recycle) (dense : Dense fs dp o) (state : obs d = o)
    (inside : off.toNat + 264 ≤ dp.size.toNat) (de : Memory) (message : String) :
    ∃ de' d', readRecord fs dp de off message d = .ok ((de',dp),d') ∧ obs d' = o ∧ Seen dp o off.toNat de' := by
  subst state
  obtain ⟨⟨de',dp'⟩,d',ran,-,result,same⟩ := (readRecord_meets careful dense (Nat.le_of_add_right_le inside) de message).returns
    (fun _ stopped => absurd stopped.2 (Nat.not_lt.mpr inside))
  obtain ⟨rfl,rfl⟩ := Prod.mk.inj result
  refine ⟨_,d',ran,same,inside,fun j bound => ?_⟩
  have here := poke_inside de 0 264 (fun j => content dp' (obs d) (off.toNat + j)) bound
  rwa [Nat.zero_add] at here

theorem Seen.next (dense : Dense fs dp o) (seen : Seen dp o off.toNat de) :
    (off + Dirent.recLen de).toNat = off.toNat + recLenAt (content dp o) off.toNat := by
  have near := dense.near
  have inside := seen.inside
  have small : (recAt (content dp o) off.toNat).len < 65536 := (u16 (content dp o) (off.toNat + 4)).toNat_lt
  rw [nearBytes_eq] at near
  rw [UInt32.toNat_add,seen.stored.recLen_toNat,Nat.mod_eq_of_lt (by omega),recLenAt]

theorem RecordLoop.scan {α β : Type} {message : String} {stop : Nat → Prop} {loop : Nat → UInt32 → α → K β} {buf : α → Memory}
    {body : Nat → UInt32 → α → Memory × Inode → K β} (records : RecordLoop fs dp o message stop loop buf body)
    (careful : Careful fs.recycle) (dense : Dense fs dp o) :
    Scan (fun fuel pos (s : α × Dev) => loop fuel (UInt32.ofNat pos) s.1 s.2) (.error .diverges)
      (fun pos s => pos < 2 ^ 32 ∧ obs s.2 = o) (Ends dp.size.toNat stop) (recLenAt (content dp o)) dp.size.toNat where
  below pos going := by
    rw [Ends] at going
    omega
  halts fuel pos s good ended := by
    obtain ⟨s,d⟩ := s
    obtain ⟨small,state⟩ := good
    have value : (UInt32.ofNat pos).toNat = pos := by rw [UInt32.toNat_ofNat',Nat.mod_eq_of_lt small]
    dsimp only at state ⊢
    generalize UInt32.ofNat pos = off at value
    subst value
    by_cases inside : off < dp.size
    · rw [records.round fuel off s inside]
      by_cases whole : off.toNat + 264 ≤ dp.size.toNat
      · obtain ⟨de',d',ran,same,seen⟩ := dense.read careful state whole (buf s) message
        rw [bind_ok ran]
        exact records.stops fuel off s de' d' seen same (ended.resolve_left (Nat.not_lt.mpr whole))
      · subst state
        rw [bind_error (readRecord_short careful dense (Nat.le_of_lt (UInt32.lt_iff_toNat_lt.mp inside)) (Nat.not_le.mp whole) _ _)]
        intro same
        cases same
    · exact records.past _ off s d inside
  advances pos s good going := by
    obtain ⟨s,d⟩ := s
    obtain ⟨small,state⟩ := good
    have value : (UInt32.ofNat pos).toNat = pos := by rw [UInt32.toNat_ofNat',Nat.mod_eq_of_lt small]
    rw [Ends,not_or,Nat.not_lt] at going
    dsimp only at state ⊢
    generalize UInt32.ofNat pos = off at value
    subst value
    obtain ⟨de',d',ran,same,seen⟩ := dense.read careful state going.1 (buf s) message
    obtain ⟨s',continues⟩ := records.goes off s de' seen going.2
    have next := seen.next dense
    refine ⟨(s',d'),⟨?_,same⟩,fun fuel => ?_⟩
    · rw [← next]
      exact UInt32.toNat_lt _
    · rw [records.round fuel off s (by rw [UInt32.lt_iff_toNat_lt]; omega),bind_ok ran,continues fuel,← next,UInt32.ofNat_toNat]
  starves pos s good going := by
    obtain ⟨s,d⟩ := s
    obtain ⟨small,state⟩ := good
    rw [Ends,not_or,Nat.not_lt] at going
    exact records.starved _ s d (by rw [UInt32.lt_iff_toNat_lt,UInt32.toNat_ofNat',Nat.mod_eq_of_lt small]; omega)

theorem pure_ends {α : Type} {x : K α} {a : α} (returns : x = pure a) (d : Dev) : x d ≠ .error .diverges := by
  rw [returns,pure_run]
  rintro ⟨⟩

theorem lookup_records {name : List UInt8} (plain : 0 ∉ name) :
    RecordLoop fs dp o "dirlookup read" (fun off => (recAt (content dp o) off).accepts name = true)
      (fun fuel off (s : Memory × Memory) => lookupLoop fs (cstring name) fuel dp off s.1 s.2) Prod.fst
      (fun fuel off s x =>
        if Dirent.inode x.1 = 0 then lookupLoop fs (cstring name) fuel x.2 (off + Dirent.recLen x.1) x.1 s.2
        else
          let fname := update (strncpy s.2 0 (fun i => x.1 (8 + i)) (Dirent.nameLen x.1)) (Dirent.nameLen x.1) 0
          if strncmp (cstring name) fname maxName = 0 then pure (some (Dirent.inode x.1,off),x.2)
          else lookupLoop fs (cstring name) fuel x.2 (off + Dirent.recLen x.1) x.1 fname) where
  past fuel off s d past := by
    cases fuel <;> exact pure_ends (by rw [lookupLoop,if_neg past]) d
  starved off s d inside := by
    rw [lookupLoop,if_pos inside,fault_run]
  round fuel off s inside := by
    rw [lookupLoop,if_pos inside]
  stops fuel off s de d seen state hit := by
    simp only [Rec.accepts,decide_eq_true_eq] at hit
    have number : Dirent.inode de = (recAt (content dp o) off.toNat).inum := seen.stored.inode
    dsimp only
    rw [if_neg (by rw [number]; exact hit.1),if_pos ((seen.stored.compare plain s.2).mpr hit.2)]
    exact pure_ends rfl d
  goes off s de seen miss := by
    simp only [Rec.accepts,decide_eq_true_eq] at miss
    have number : Dirent.inode de = (recAt (content dp o) off.toNat).inum := seen.stored.inode
    by_cases removed : Dirent.inode de = 0
    · refine ⟨(de,s.2),fun fuel => ?_⟩
      dsimp only
      rw [if_pos removed]
    · refine ⟨(de,update (strncpy s.2 0 (fun i => de (8 + i)) (Dirent.nameLen de)) (Dirent.nameLen de) 0),fun fuel => ?_⟩
      dsimp only
      rw [if_neg removed,if_neg]
      intro equal
      exact miss ⟨by rw [← number]; exact removed,(seen.stored.compare plain s.2).mp equal⟩

theorem empty_records :
    RecordLoop fs dp o "isdirempty: readi" (fun off => passes (content dp o) off (recAt (content dp o) off) = false)
      (fun fuel off de => emptyLoop fs fuel dp off de) id
      (fun fuel off _ x =>
        if dotName x.1 then emptyLoop fs fuel x.2 (off + Dirent.recLen x.1) x.1
        else if Dirent.inode x.1 ≠ 0 then pure (false,x.2)
        else emptyLoop fs fuel x.2 (off + Dirent.recLen x.1) x.1) where
  past fuel off de d past := by
    cases fuel <;> exact pure_ends (by rw [emptyLoop,if_neg past]) d
  starved off de d inside := by
    rw [emptyLoop,if_pos inside,fault_run]
  round fuel off de inside := by
    rw [emptyLoop,if_pos inside]
    rfl
  stops fuel off s de d seen state busy := by
    simp only [passes,decide_eq_false_iff_not,not_or] at busy
    have number : Dirent.inode de = (recAt (content dp o) off.toNat).inum := seen.stored.inode
    dsimp only
    rw [dotName_congr seen.bytes,if_neg busy.1,if_pos (by rw [number]; exact busy.2)]
    exact pure_ends rfl d
  goes off s de seen idle := by
    simp only [passes,decide_eq_false_iff_not,not_not] at idle
    have number : Dirent.inode de = (recAt (content dp o) off.toNat).inum := seen.stored.inode
    refine ⟨de,fun fuel => ?_⟩
    dsimp only
    rw [dotName_congr seen.bytes,number]
    rcases idle with dot | removed
    · rw [if_pos dot]
    · rw [if_neg (not_not.mpr removed),ite_self]

theorem cutRecord_ends (careful : Careful fs.recycle) (dense : Dense fs dp (obs d)) (inside : off.toNat + 264 ≤ dp.size.toNat) :
    cutRecord fs dp off de d ≠ .error .diverges := by
  have near := dense.near
  rw [nearBytes_eq] at near
  have short : Dirent.nameLen de ≤ 255 := Nat.le_of_lt_succ (de 6).toNat_lt
  have cut := (recAt_at de 0).setRecLen (v := 9 + Dirent.nameLen de) (by omega)
  have count := cut.recLen_toNat
  dsimp only at count
  have meets : Meets (cutRecord fs dp off de) d (fun _ _ => True) (fun e => e = .panic "ext2_dirlink read 2") := by
    rw [cutRecord,show direntSize.toNat - maxName = 9 from rfl]
    refine ((writeRecord_meets careful dense (n := direntSize) inside _ _).excuse (fun _ => False.elim)).bind ?_
    intro dp₁ d₁ written
    obtain ⟨rfl,dense₁,-⟩ := written
    have place : (off + Dirent.recLen (Dirent.setRecLen de (9 + Dirent.nameLen de))).toNat ≤ dp₁.size.toNat := by
      rw [UInt32.toNat_add,count,Nat.mod_eq_of_lt (by omega)]
      omega
    refine ((readRecord_meets careful dense₁ place _ _).excuse (fun _ stopped => stopped.1)).bind ?_
    intro x d₂ _
    exact .pure_intro trivial
  intro stopped
  rw [Meets,stopped] at meets
  cases meets

theorem space_records (careful : Careful fs.recycle) (dense : Dense fs dp o) :
    RecordLoop fs dp o "ext2_dirlink read 1" (fun off => (recAt (content dp o) off).Spacious off)
      (fun fuel off de => spaceLoop fs fuel dp off de) id
      (fun fuel off _ x =>
        if direntSize < Dirent.recLen x.1 ∧ (Dirent.recLen x.1).toNat = bsize - off.toNat % bsize then cutRecord fs x.2 off x.1
        else spaceLoop fs fuel x.2 (off + Dirent.recLen x.1) x.1) where
  past fuel off de d past := by
    cases fuel <;> exact pure_ends (by rw [spaceLoop,if_neg past]) d
  starved off de d inside := by
    rw [spaceLoop,if_pos inside,fault_run]
  round fuel off de inside := by
    rw [spaceLoop,if_pos inside]
    rfl
  stops fuel off s de d seen state spacious := by
    subst state
    rw [Rec.Spacious,← seen.stored.recLen_toNat] at spacious
    rw [if_pos (by rw [UInt32.lt_iff_toNat_lt]; exact spacious)]
    exact cutRecord_ends careful dense seen.inside
  goes off s de seen tight := by
    rw [Rec.Spacious,← seen.stored.recLen_toNat] at tight
    refine ⟨de,fun fuel => ?_⟩
    rw [if_neg (by rw [UInt32.lt_iff_toNat_lt]; exact tight)]

end

/-- The loops of `ext2_dirlookup`, `ext2_dirlink` and `ext2_isdirempty` end exactly when they do not come to a record with
`rec_len` zero. -/
theorem directory_loops_end_iff {fs : Mount} (careful : Careful fs.recycle) {dp : Inode} {d : Dev} (dense : Dense fs dp (obs d))
    {name : List UInt8} (plain : 0 ∉ name) (de fname : Memory) :
    ((∃ fuel, lookupLoop fs (cstring name) fuel dp 0 de fname d ≠ .error .diverges) ↔
      ¬Stuck (Ends dp.size.toNat fun off => (recAt (content dp (obs d)) off).accepts name = true) (recLenAt (content dp (obs d))) 0) ∧
    ((∃ fuel, spaceLoop fs fuel dp 0 de d ≠ .error .diverges) ↔
      ¬Stuck (Ends dp.size.toNat fun off => (recAt (content dp (obs d)) off).Spacious off) (recLenAt (content dp (obs d))) 0) ∧
    ((∃ fuel, emptyLoop fs fuel dp 0 de d ≠ .error .diverges) ↔
      ¬Stuck (Ends dp.size.toNat fun off => passes (content dp (obs d)) off (recAt (content dp (obs d)) off) = false)
        (recLenAt (content dp (obs d))) 0) := by
  refine ⟨?_,?_,?_⟩
  · exact ((lookup_records plain).scan careful dense).ends_iff (s := ((de,fname),d)) ⟨by decide,rfl⟩
  · exact ((space_records careful dense).scan careful dense).ends_iff (s := (de,d)) ⟨by decide,rfl⟩
  · exact (empty_records.scan careful dense).ends_iff (s := (de,d)) ⟨by decide,rfl⟩

/-- A directory with the one record `.` ends all loops. -/
theorem directory_loops_end_dot :
    (∃ fuel, lookupLoop stillMount (cstring [97]) fuel (listed 2048) 0 garbage garbage
      (cold (listing [⟨1,[46],2048⟩] [])) ≠ .error .diverges) ∧
    (∃ fuel, spaceLoop stillMount fuel (listed 2048) 0 garbage (cold (listing [⟨1,[46],2048⟩] [])) ≠ .error .diverges) ∧
    ∃ fuel, emptyLoop stillMount fuel (listed 2048) 0 garbage (cold (listing [⟨1,[46],2048⟩] [])) ≠
      .error .diverges := by
  have dense := listed_dense (show (2048 : UInt32).toNat ≤ 2 * bsize by decide) [⟨1,[46],2048⟩] []
  have length : recLenAt (content (listed 2048) (obs (cold (listing [⟨1,[46],2048⟩] [])))) 0 = 2048 := by decide +kernel
  have free (stop : Nat → Prop) : ¬Stuck (Ends (listed 2048).size.toNat stop)
      (recLenAt (content (listed 2048) (obs (cold (listing [⟨1,[46],2048⟩] []))))) 0 := by
    generalize recLenAt (content (listed 2048) (obs (cold (listing [⟨1,[46],2048⟩] [])))) = len at length
    intro stuck
    cases stuck with
    | here going zero =>
      rw [length] at zero
      contradiction
    | later going next =>
      rw [length] at next
      cases next with
      | here going' => exact going' (.inl (by decide))
      | later going' => exact going' (.inl (by decide))
  obtain ⟨lookup,space,empty⟩ := directory_loops_end_iff never_careful dense (show (0 : UInt8) ∉ [97] by decide) garbage garbage
  exact ⟨lookup.mpr (free _),space.mpr (free _),empty.mpr (free _)⟩

/-- In a block of zeros the loops never end. -/
theorem directory_loops_stuck_at_zeros : Dense stillMount (listed 2048) (obs (cold (listing [] []))) ∧
    (∀ fuel, lookupLoop stillMount (cstring [97]) fuel (listed 2048) 0 garbage garbage (cold (listing [] [])) =
      .error .diverges) ∧
    (∀ fuel, spaceLoop stillMount fuel (listed 2048) 0 garbage (cold (listing [] [])) = .error .diverges) ∧
    ∀ fuel, emptyLoop stillMount fuel (listed 2048) 0 garbage (cold (listing [] [])) = .error .diverges := by
  have dense := listed_dense (show (2048 : UInt32).toNat ≤ 2 * bsize by decide) [] []
  have length : recAt (content (listed 2048) (obs (cold (listing [] [])))) 0 = ⟨0,[],0⟩ := by decide +kernel
  have stuck (stop : Nat → Prop) (going : ¬stop 0) : Stuck (Ends (listed 2048).size.toNat stop)
      (recLenAt (content (listed 2048) (obs (cold (listing [] []))))) 0 := by
    refine .here (fun ended => ended.elim (by decide) going) ?_
    rw [recLenAt,length]
  refine ⟨dense,?_,?_,?_⟩
  · intro fuel
    refine ((lookup_records (by decide)).scan never_careful dense).loops (stuck _ ?_) fuel ((garbage,garbage),_) ⟨by decide,rfl⟩
    rw [length]
    decide
  · intro fuel
    refine ((space_records never_careful dense).scan never_careful dense).loops (stuck _ ?_) fuel (garbage,_) ⟨by decide,rfl⟩
    rw [length]
    exact fun spacious => absurd spacious.1 (by decide)
  · intro fuel
    refine (empty_records.scan never_careful dense).loops (stuck _ ?_) fuel (garbage,_) ⟨by decide,rfl⟩
    rw [length]
    simp [passes]

end Xv6Ext2.Ext2
