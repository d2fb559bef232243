import Xv6Ext2.Ext2.Directory
import Xv6Ext2.Lib.Chain

/-! The records of a directory: how they lie in its bytes, and the chain they form. -/
namespace Xv6Ext2.Ext2
open Lib Bio Function

/-- A directory entry. A removed one has inode number zero and no name, and keeps its length. -/
structure Rec where
  inum : UInt32
  name : List UInt8
  len : Nat
  deriving DecidableEq

/-- The names `ext2_dirlink` is called with. -/
structure NameOk (name : List UInt8) : Prop where
  nonempty : name ≠ []
  short : name.length ≤ 254
  plain : 0 ∉ name

namespace Rec

structure At (r : Rec) (bytes : Memory) (off : Nat) : Prop where
  inode : u32 bytes off = r.inum
  recLen : (u16 bytes (off + 4)).toNat = r.len
  nameLen : (bytes (off + 6)).toNat = r.name.length
  name : ∀ i < r.name.length, bytes (off + 8 + i) = cstring r.name i

def Proper (r : Rec) : Prop := r.inum = 0 ∧ r.name = [] ∨ r.inum ≠ 0 ∧ NameOk r.name

/-- The record at `off` has space for its name, lies in one block, and 264 bytes can be read there. -/
structure Fits (off : Nat) (r : Rec) : Prop where
  proper : r.Proper
  space : 9 + r.name.length ≤ r.len
  block : off % bsize + r.len ≤ bsize
  whole : off % bsize + 264 ≤ bsize

/-- The test of `ext2_dirlink` for a record that can be cut off. -/
def Spacious (off : Nat) (r : Rec) : Prop := 264 < r.len ∧ r.len = bsize - off % bsize

def Apart (r s : Rec) : Prop := r.inum ≠ 0 → s.inum ≠ 0 → r.name ≠ s.name

def names (name : List UInt8) (r : Rec) : Bool := r.inum ≠ 0 ∧ r.name = name

/-- The entry that `ext2_dirlookup` takes for `name`: names end at a zero byte, and 255 bytes are compared. -/
def accepts (name : List UInt8) (r : Rec) : Bool := r.inum ≠ 0 ∧ r.name.takeWhile (· ≠ 0) = name.take 255

end Rec

section

variable {r : Rec} {bytes bytes' : Memory} {off off' : Nat}

theorem Rec.Fits.name_le (fits : r.Fits off) : r.name.length ≤ 254 := by
  rcases fits.proper with ⟨-,empty⟩ | ⟨-,ok⟩
  · simp [empty]
  · exact ok.short

theorem Rec.Fits.plain (fits : r.Fits off) : 0 ∉ r.name := by
  rcases fits.proper with ⟨-,empty⟩ | ⟨-,ok⟩
  · simp [empty]
  · exact ok.plain

theorem Rec.At.congr (stored : r.At bytes off)
    (same : ∀ i < 8 + r.name.length, bytes' (off' + i) = bytes (off + i)) : r.At bytes' off' where
  inode := by
    rw [← stored.inode]
    exact u32_congr _ _ _ _ (fun i bound => same i (by omega))
  recLen := by
    rw [← stored.recLen]
    exact congrArg _ (u16_congr _ _ _ _ (fun i bound => by
      rw [Nat.add_assoc,Nat.add_assoc]
      exact same (4 + i) (by omega)))
  nameLen := by rw [same 6 (by omega)]; exact stored.nameLen
  name i bound := by
    rw [Nat.add_assoc,same (8 + i) (by omega),← Nat.add_assoc]
    exact stored.name i bound

theorem stored_congr {recs : List Rec} (space : Along Rec.len (fun _ r => 8 + r.name.length ≤ r.len) off recs)
    (stored : Along Rec.len (fun pos r => r.At bytes pos) off recs)
    (same : ∀ x, off ≤ x → x < off + span Rec.len recs → bytes' x = bytes x) :
    Along Rec.len (fun pos r => r.At bytes' pos) off recs := by
  refine (space.and stored).mono (fun pos r lower upper both => both.2.congr (fun i bound => ?_))
  have room := both.1
  exact same (pos + i) (by omega) (by omega)

theorem Rec.At.read (stored : r.At bytes off) {de : Memory} (read : ∀ j < 264, de j = bytes (off + j)) : r.At de 0 := by
  have short : r.name.length ≤ 255 := by
    rw [← stored.nameLen]
    exact Nat.le_of_lt_succ (bytes (off + 6)).toNat_lt
  exact stored.congr (fun i bound => by rw [Nat.zero_add]; exact read i (by omega))

theorem Rec.At.setRecLen (stored : r.At bytes 0) {v : Nat} (small : v < 65536) :
    ({r with len := v} : Rec).At (Dirent.setRecLen bytes v) 0 where
  inode := by
    rw [← stored.inode]
    exact u32_congr _ _ _ _ (fun i bound => poke_outside _ _ _ _ (by omega))
  recLen := by
    have value : (UInt16.ofNat v).toNat = v := by
      rw [UInt16.toNat_ofNat']
      exact Nat.mod_eq_of_lt small
    rw [u16_stored _ _ (UInt16.ofNat v),value]
    intro i bound
    rw [Dirent.setRecLen,Nat.zero_add,poke_inside _ _ _ _ bound,value]
  nameLen := by
    rw [← stored.nameLen]
    exact congrArg _ (poke_outside _ _ _ _ (by omega))
  name i bound := by
    rw [← stored.name i bound]
    exact poke_outside _ _ _ _ (by omega)

theorem Rec.At.name_le (stored : r.At bytes off) : r.name.length ≤ 255 := by
  rw [← stored.nameLen]
  exact Nat.le_of_lt_succ (bytes (off + 6)).toNat_lt

theorem Rec.At.recLen_toNat (stored : r.At bytes 0) : (Dirent.recLen bytes).toNat = r.len := by
  rw [Dirent.recLen,UInt16.toNat_toUInt32]
  exact stored.recLen

theorem Rec.At.compare {name : List UInt8} (stored : r.At bytes 0) (plain : 0 ∉ name) (fname : Memory) :
    strncmp (cstring name) (update (strncpy fname 0 (fun i => bytes (8 + i)) (Dirent.nameLen bytes))
      (Dirent.nameLen bytes) 0) maxName = 0 ↔ r.name.takeWhile (· ≠ 0) = name.take 255 := by
  have length : Dirent.nameLen bytes = r.name.length := stored.nameLen
  have copied : cname (update (strncpy fname 0 (fun i => bytes (8 + i)) r.name.length) r.name.length 0)
      r.name.length = cname (cstring r.name) r.name.length := by
    calc
      _ = cname (fun i => strncpy fname 0 (fun i => bytes (8 + i)) r.name.length (0 + i)) r.name.length :=
        cname_congr fun i inside => by rw [update_of_ne (by omega),Nat.zero_add]
      _ = cname (fun i => bytes (8 + i)) r.name.length := cname_strncpy _ _ _ _
      _ = cname (cstring r.name) r.name.length := cname_congr fun i inside => by
        have here := stored.name i inside
        rwa [Nat.zero_add] at here
  have short : r.name.length ≤ maxName := stored.name_le
  rw [length,strncmp_eq_zero,cname_cstring,takeWhile_plain plain,
    cname_ended short (fun _ => update_self _ _ _),copied,cname_cstring,
    List.take_of_length_le (List.takeWhile_sublist _).length_le]
  exact eq_comm

theorem Rec.Fits.accepts_eq (fits : r.Fits off) {name : List UInt8} : r.accepts name = r.names name := by
  have short := fits.name_le
  simp only [Rec.accepts,Rec.names,takeWhile_plain fits.plain]
  by_cases long : name.length ≤ 255
  · rw [List.take_of_length_le long]
  · have cut : r.name ≠ name.take 255 := by
      intro same
      have := congrArg List.length same
      rw [List.length_take] at this
      omega
    have whole : r.name ≠ name := by
      rintro rfl
      omega
    simp [cut,whole]

theorem strncpy_name {name : List UInt8} (plain : 0 ∉ name) (de : Memory) :
    strncpy de 8 (cstring name) maxName = poke de 8 255 (cstring name) := by
  refine strncpy_eq_poke _ _ _ _ (fun j k le _ zero => cstring_end _ ?_)
  by_contra inside
  exact cstring_ne_zero plain (show j < name.length by omega) zero

theorem fillRecord_meets {name : List UInt8} (plain : 0 ∉ name) (de : Memory) (inum : UInt32) (d : Dev) :
    Meets (fillRecord de (cstring name) inum) d
      (fun de' d' => d' = d ∧ (∀ v < 65536, (⟨inum,name.take 255,v⟩ : Rec).At (Dirent.setRecLen de' v) 0) ∧
        (name.length ≤ 254 ∨ de 263 = 0) ∧ ∀ j ≥ 264, de' j = de j)
      (fun _ => ¬(name.length ≤ 254 ∨ de 263 = 0)) := by
  have copied := strncpy_name plain de
  have whole (i : Nat) (bound : i < 255) : cstring (name.take 255) i = cstring name i := by
    simp [cstring,List.getD_eq_getElem?_getD,bound]
  have stored (i : Nat) (bound : i < 255) : poke de 8 255 (cstring name) (8 + i) = cstring (name.take 255) i := by
    rw [poke_inside _ _ _ _ bound,whole i bound]
  have limit : (name.take 255).length ≤ 255 := by
    rw [List.length_take]
    omega
  have plain' : 0 ∉ name.take 255 := fun member => plain (List.mem_of_mem_take member)
  rw [fillRecord,copied]
  by_cases ends : name.length ≤ 254 ∨ de 263 = 0
  · have counted : strlen (fun i => poke de 8 255 (cstring name) (8 + i)) (direntSize.toNat - 8) = some (name.take 255).length := by
      refine strlen_eq plain' (fun i bound => ?_) (show (name.take 255).length < 256 by omega)
      rcases Nat.lt_or_ge i 255 with inside | behind
      · exact stored i inside
      · have last : i = 255 := by omega
        rw [last,poke_outside _ _ _ _ (by omega),cstring_end _ limit]
        refine ends.resolve_left fun short => ?_
        rw [List.length_take] at bound
        omega
    rw [counted]
    have behind : ∀ j ≥ 264, Dirent.setInode (Dirent.setNameLen (poke de 8 255 (cstring name)) (name.take 255).length) inum j = de j := by
      intro j behind
      rw [Dirent.setInode,poke_outside _ _ _ _ (by omega),Dirent.setNameLen,poke_outside _ _ _ _ (by omega),
        poke_outside _ _ _ _ (by omega)]
    refine .pure_intro ⟨rfl,fun v small => ?_,ends,behind⟩
    clear ends behind
    generalize name.take 255 = name' at *
    have unset : (⟨inum,name',(u16 (Dirent.setInode (Dirent.setNameLen (poke de 8 255 (cstring name)) name'.length)
        inum) 4).toNat⟩ : Rec).At (Dirent.setInode (Dirent.setNameLen (poke de 8 255 (cstring name)) name'.length) inum) 0 := by
      refine ⟨?_,rfl,?_,?_⟩
      · refine u32_stored _ _ _ (fun i bound => ?_)
        rw [Dirent.setInode,poke_inside _ _ _ _ bound]
      · have outside : Dirent.setInode (Dirent.setNameLen (poke de 8 255 (cstring name)) name'.length) inum (0 + 6) =
            leByte name'.length 0 := by
          rw [Dirent.setInode,poke_outside _ _ _ _ (by omega),Dirent.setNameLen]
          exact poke_inside _ _ _ _ Nat.one_pos
        rw [outside,leByte,Nat.pow_zero,Nat.div_one,UInt8.toNat_ofNat']
        exact Nat.mod_eq_of_lt (by omega)
      · intro i bound
        dsimp only at bound ⊢
        rw [← stored i (by omega),Nat.zero_add,Dirent.setInode,poke_outside _ _ _ _ (by omega),Dirent.setNameLen,
          poke_outside _ _ _ _ (by omega)]
    exact unset.setRecLen small
  · have nonzero : strlen (fun i => poke de 8 255 (cstring name) (8 + i)) (direntSize.toNat - 8) = none := by
      refine strlen_none fun i bound => ?_
      rcases Nat.lt_or_ge i 255 with inside | behind
      · rw [poke_inside _ _ _ _ inside]
        exact cstring_ne_zero plain (by omega)
      · have last : i = 255 := by
          have limit : direntSize.toNat - 8 = 256 := rfl
          omega
        rw [last,poke_outside _ _ _ _ (by omega)]
        exact fun zero => ends (.inr zero)
    rw [nonzero]
    exact .of_error (fault_run _ _) ends

theorem blank_at (de : Memory) {v : Nat} (small : v < 65536) :
    (⟨0,[],v⟩ : Rec).At (Dirent.setRecLen (poke de 0 264 (fun _ => 0)) v) 0 := by
  have zeros (i : Nat) (bound : i < 264) : poke de 0 264 (fun _ => 0) i = 0 := if_pos (by omega)
  have unset : (⟨0,[],(u16 (poke de 0 264 (fun _ => 0)) 4).toNat⟩ : Rec).At (poke de 0 264 (fun _ => 0)) 0 := by
    refine ⟨?_,rfl,by rw [zeros _ (by omega)]; rfl,fun i bound => absurd bound (Nat.not_lt_zero i)⟩
    rw [u32_congr _ (fun _ => 0) 0 0 (fun i bound => zeros _ (by omega)),u32_zero]
  exact unset.setRecLen small

end

def find (recs : List Rec) (name : List UInt8) : Option UInt32 := (recs.find? (Rec.names name)).map Rec.inum

/-- Records that `ext2_dirlink` and `ext2_unlink` can have left: they tile whole blocks, only behind
the last one there may be space for another, and no two entries have the same name. -/
structure Chained (recs : List Rec) : Prop where
  fits : Along Rec.len Rec.Fits 0 recs
  aligned : span Rec.len recs % bsize = 0
  tight : Along Rec.len (fun off r => ¬r.Spacious off) 0 recs.dropLast
  apart : recs.Pairwise Rec.Apart

theorem chained_nil : Chained [] := ⟨trivial,rfl,trivial,List.Pairwise.nil⟩

section

variable {recs front back : List Rec} {r last : Rec} {name : List UInt8} {inum : UInt32}

theorem find_eq_none_iff : find recs name = none ↔ ∀ r ∈ recs, r.inum ≠ 0 → r.name ≠ name := by
  simp [find,List.find?_eq_none,Rec.names]

theorem find_eq_locate : find recs name = (locate Rec.len (Rec.names name) 0 recs).map (fun found => found.1.inum) := by
  rw [find,← locate_fst 0 recs,Option.map_map]
  rfl

theorem find_cons_self (nonzero : r.inum ≠ 0) : find (r :: recs) r.name = some r.inum := by
  simp [find,Rec.names,nonzero]

theorem find_cons_other (other : r.inum = 0 ∨ r.name ≠ name) : find (r :: recs) name = find recs name := by
  have rejected : Rec.names name r = false := by
    rcases other with zero | differ
    · simp [Rec.names,zero]
    · simp [Rec.names,differ]
  rw [find,List.find?_cons,rejected,find]

theorem find_append : find (front ++ back) name = (find front name).or (find back name) := by
  rw [find,find,find,List.find?_append]
  cases front.find? (Rec.names name) <;> rfl

theorem find_resized (len : Nat) : find ({r with len := len} :: recs) name = find (r :: recs) name := by
  by_cases here : r.inum ≠ 0 ∧ r.name = name
  · obtain ⟨nonzero,rfl⟩ := here
    rw [find_cons_self nonzero]
    exact find_cons_self (r := {r with len := len}) nonzero
  · have other : r.inum = 0 ∨ r.name ≠ name := by tauto
    rw [find_cons_other other]
    exact find_cons_other (r := {r with len := len}) other

theorem Chained.fits_at (chained : Chained (front ++ r :: back)) : r.Fits (span Rec.len front) := by
  have fits := (along_append.mp chained.fits).2.1
  rwa [Nat.zero_add] at fits

theorem last_of_tight (tight : Along Rec.len (fun off r => ¬r.Spacious off) 0 (front ++ r :: back).dropLast)
    (spacious : r.Spacious (span Rec.len front)) : back = [] := by
  by_contra more
  rw [List.dropLast_append_of_ne_nil (List.cons_ne_nil r back),List.dropLast_cons_of_ne_nil more,along_append] at tight
  exact tight.2.1 (by rw [Nat.zero_add]; exact spacious)

theorem tight_blanked (tight : Along Rec.len (fun off r => ¬r.Spacious off) 0 (front ++ r :: back).dropLast) :
    Along Rec.len (fun off r => ¬r.Spacious off) 0 (front ++ ⟨0,[],r.len⟩ :: back).dropLast := by
  by_cases none : back = []
  · subst none
    rwa [List.dropLast_concat] at tight ⊢
  · rw [List.dropLast_append_of_ne_nil (List.cons_ne_nil _ back),List.dropLast_cons_of_ne_nil none,
      along_append] at tight ⊢
    exact tight

theorem Chained.spacious_last (chained : Chained (front ++ r :: back)) (spacious : r.Spacious (span Rec.len front)) :
    back = [] := last_of_tight chained.tight spacious

private theorem apart_new (chained : Chained recs) (absent : find recs name = none) (inum : UInt32) (len : Nat) :
    (recs ++ [Rec.mk inum name len]).Pairwise Rec.Apart := by
  rw [List.pairwise_append]
  refine ⟨chained.apart,List.pairwise_singleton _ _,fun r member s single nonzero _ => ?_⟩
  rw [List.mem_singleton.mp single]
  exact find_eq_none_iff.mp absent r member nonzero

theorem Chained.append (chained : Chained recs) (tight : Along Rec.len (fun off r => ¬r.Spacious off) 0 recs)
    (absent : find recs name = none) (ok : NameOk name) (nonzero : inum ≠ 0) :
    Chained (recs ++ [⟨inum,name,bsize⟩]) where
  fits := by
    refine along_concat.mpr ⟨chained.fits,.inr ⟨nonzero,ok⟩,?_,?_,?_⟩
    · have short := ok.short
      simp only [bsize]
      omega
    · rw [Nat.zero_add,chained.aligned,Nat.zero_add]
    · rw [Nat.zero_add,chained.aligned]
      decide
  aligned := by
    rw [span_append,span_cons,span_nil,Nat.add_zero,Nat.add_mod_right]
    exact chained.aligned
  tight := by rwa [List.dropLast_concat]
  apart := apart_new chained absent _ _

theorem Chained.insert (chained : Chained (front ++ [last])) (space : 9 + last.name.length + 264 ≤ last.len)
    (absent : find (front ++ [last]) name = none) (ok : NameOk name) (nonzero : inum ≠ 0) :
    Chained (front ++ [{last with len := 9 + last.name.length},
      ⟨inum,name,last.len - (9 + last.name.length)⟩]) := by
  have fits := chained.fits_at
  have block := fits.block
  have short := ok.short
  obtain ⟨fitsFront,-⟩ := along_append.mp chained.fits
  have step : (span Rec.len front + (9 + last.name.length)) % bsize =
      span Rec.len front % bsize + (9 + last.name.length) := by
    simp only [bsize] at block ⊢
    omega
  refine ⟨along_append.mpr ⟨fitsFront,?_,?_,trivial⟩,?_,?_,?_⟩
  · rw [Nat.zero_add]
    exact ⟨fits.proper,Nat.le_refl _,by dsimp only; omega,fits.whole⟩
  · rw [Nat.zero_add]
    exact ⟨.inr ⟨nonzero,ok⟩,by dsimp only; omega,by dsimp only; omega,by dsimp only; omega⟩
  · have aligned := chained.aligned
    simp only [span_append,span_cons,span_nil] at aligned ⊢
    rw [show span Rec.len front + (9 + last.name.length + (last.len - (9 + last.name.length) + 0)) =
      span Rec.len front + (last.len + 0) by omega]
    exact aligned
  · have tight := chained.tight
    rw [List.dropLast_concat] at tight
    rw [show front ++ [{last with len := 9 + last.name.length},⟨inum,name,last.len - (9 + last.name.length)⟩] =
      front ++ [{last with len := 9 + last.name.length}] ++ [⟨inum,name,last.len - (9 + last.name.length)⟩] by simp,
      List.dropLast_concat]
    refine along_concat.mpr ⟨tight,fun spacious => ?_⟩
    have long := spacious.1
    have nameLe := fits.name_le
    dsimp only at long
    omega
  · have news := apart_new chained absent inum (last.len - (9 + last.name.length))
    rw [List.append_assoc,List.pairwise_append] at news
    rw [List.pairwise_append]
    refine ⟨news.1,?_,fun r member s pair => ?_⟩
    · have pair : last.Apart ⟨inum,name,last.len - (9 + last.name.length)⟩ := by simpa using news.2.1
      exact List.pairwise_pair.mpr pair
    · rcases List.mem_cons.mp pair with rfl | single
      · exact news.2.2 r member last (by simp)
      · exact news.2.2 r member s (by simpa using .inr (List.mem_singleton.mp single))

theorem Chained.remove (chained : Chained (front ++ r :: back)) : Chained (front ++ ⟨0,[],r.len⟩ :: back) where
  fits := by
    obtain ⟨before,fits,after⟩ := along_append.mp chained.fits
    refine along_append.mpr ⟨before,⟨.inl ⟨rfl,rfl⟩,?_,fits.block,fits.whole⟩,after⟩
    have space := fits.space
    simp only [List.length_nil]
    omega
  aligned := by
    have aligned := chained.aligned
    rw [span_append,span_cons] at aligned ⊢
    exact aligned
  tight := tight_blanked chained.tight
  apart := by
    have apart := chained.apart
    rw [List.pairwise_append,List.pairwise_cons] at apart ⊢
    refine ⟨apart.1,⟨fun s _ zero => absurd rfl zero,apart.2.1.2⟩,fun s member t pair => ?_⟩
    rcases List.mem_cons.mp pair with rfl | later
    · exact fun _ zero => absurd rfl zero
    · exact apart.2.2 s member t (List.mem_cons_of_mem _ later)

theorem Chained.find_removed (chained : Chained (front ++ r :: back)) (nonzero : r.inum ≠ 0) :
    find (front ++ ⟨0,[],r.len⟩ :: back) = update (find (front ++ r :: back)) r.name none := by
  have apart := chained.apart
  rw [List.pairwise_append,List.pairwise_cons] at apart
  funext name
  by_cases same : name = r.name
  · subst same
    rw [update_self]
    refine find_eq_none_iff.mpr (fun s member live => ?_)
    rcases List.mem_append.mp member with before | rest
    · exact apart.2.2 s before r (by simp) live nonzero
    · rcases List.mem_cons.mp rest with rfl | after
      · exact absurd rfl live
      · exact (apart.2.1.1 s after nonzero live).symm
  · rw [update_of_ne same,find_append,find_append,find_cons_other (.inl rfl),
      find_cons_other (.inr (Ne.symm same))]

theorem find_appended (absent : find recs name = none) (nonzero : inum ≠ 0) (len : Nat) :
    find (recs ++ [⟨inum,name,len⟩]) = update (find recs) name (some inum) := by
  funext other
  rw [find_append]
  by_cases same : other = name
  · subst same
    rw [absent,update_self]
    exact find_cons_self (r := ⟨inum,other,len⟩) nonzero
  · rw [update_of_ne same,find_cons_other (.inr (Ne.symm same))]
    exact Option.or_none

theorem find_inserted (absent : find (front ++ [last]) name = none) (nonzero : inum ≠ 0) (cut len : Nat) :
    find (front ++ [{last with len := cut},⟨inum,name,len⟩]) =
      update (find (front ++ [last])) name (some inum) := by
  rw [← find_appended absent nonzero len,List.append_assoc]
  funext other
  rw [find_append,find_append]
  exact congrArg _ (find_resized cut)

end

end Xv6Ext2.Ext2
