import Xv6Ext2.Fs.Cache
import Xv6Ext2.Lib.Schedule

/-! Files over whole runs: each inode is an array of bytes that `writei` overwrites and extends and `readi`
copies from. References may be dropped and taken and transactions committed in between. -/
namespace Xv6Ext2.Fs
open Lib Bio Log Function

def Kernel.view (k : Kernel) : Blockno → Block := (obs k.sys.dev).view

def bytes (fs : Volume) (v : Blockno → Block) (i : UInt32) : List UInt8 :=
  (List.range (files fs v i).size.toNat).map (content (files fs v) v i)

abbrev Arrays := UInt32 → List UInt8

inductive FileOp where
  | get (i : UInt32)
  | put (i : UInt32)
  | write (i : UInt32) (src : Nat → UInt8) (off n : UInt32)
  | read (i : UInt32) (dst : Nat → UInt8) (off n : UInt32)
  | commit

inductive Reply where
  | done
  | wrote (ret : UInt32)
  | copied (ret : UInt32) (dst : Nat → UInt8)

def FileOp.run (fs : Volume) : FileOp → M Reply
  | .get i => do
    iget i
    return .done
  | .put i => do
    iput fs i
    return .done
  | .write i src off n => do
    ilock fs i
    let ret ← writeInode fs i src off n
    iunlock i
    return .wrote ret
  | .read i dst off n => do
    ilock fs i
    let (ret,dst) ← readInode fs i dst off n
    iunlock i
    return .copied ret dst
  | .commit => do
    onSys (endOp fs)
    onSys beginOp
    return .done

def splice (a : List UInt8) (off n : Nat) (src : Nat → UInt8) : List UInt8 :=
  a.take off ++ (List.range n).map src ++ a.drop (off + n)

/-- `off > size`, or `off + n` wraps. -/
def Outside (a : List UInt8) (off n : UInt32) : Prop := a.length < off.toNat ∨ 2^32 ≤ off.toNat + n.toNat

instance (a : List UInt8) (off n : UInt32) : Decidable (Outside a off n) := inferInstanceAs (Decidable (_ ∨ _))

def FileOp.apply (a : Arrays) : FileOp → Reply × Arrays
  | .write i src off n =>
    if Outside (a i) off n ∨ maxfile * bsize < off.toNat + n.toNat then (.wrote minusOne,a)
    else (.wrote n,update a i (splice (a i) off.toNat n.toNat src))
  | .read i dst off n =>
    if Outside (a i) off n then (.copied minusOne dst,a)
    else
      let len := min n.toNat ((a i).length - off.toNat)
      (.copied (UInt32.ofNat len) (poke dst 0 len (fun j => (a i).getD (off.toNat + j) 0)),a)
  | .get _ => (.done,a)
  | .put _ => (.done,a)
  | .commit => (.done,a)

/-- The call is no write, or one that is refused. -/
def FileOp.Quiet (a : Arrays) : FileOp → Prop
  | .write i _ off n => Outside (a i) off n ∨ maxfile * bsize < off.toNat + n.toNat
  | _ => True

/-- An inode that is in use and is no device. -/
def Plain (fs : Volume) (k : Kernel) (i : UInt32) : Prop :=
  1 ≤ (k.cache i).ref ∧ (files fs k.view i).type ≠ 0 ∧ (files fs k.view i).type ≠ tDev

/-- The blocks that are in the log before the last `log_write` of a write, but for the new ones. -/
def ledger (fs : Volume) (k : Kernel) (i : UInt32) (off n : Nat) : Finset Blockno :=
  k.sys.log.lh.toFinset ∪ footprint fs (files fs k.view) k.view i off n

/-- There are blocks for a write, and the last `log_write` still finds room. -/
def Affordable (fs : Volume) (k : Kernel) (i : UInt32) (off n : Nat) : Prop :=
  need (files fs k.view) k.view i off n ≤ space fs k.view ∧
    (ledger fs k i off n).card + need (files fs k.view) k.view i off n + 2 ≤ limit fs

/-- Calls are made on inodes that are in use, and `iget` finds an entry. A reference that is dropped is not the last one
of an inode without links. What a write needs is asked only of one that is accepted. -/
def FileOp.Allowed (fs : Volume) (k : Kernel) : FileOp → Prop
  | .get i => k.Room i
  | .put i => 1 ≤ (k.cache i).ref ∧ ((k.cache i).ref ≠ 1 ∨ (files fs k.view i).nlink ≠ 0)
  | .write i _ off n => Plain fs k i ∧
      (¬Refused (files fs k.view i) off n → 0 < n.toNat → Affordable fs k i off.toNat n.toNat)
  | .read i _ _ _ => Plain fs k i
  | .commit => True

instance (fs : Volume) (k : Kernel) (i : UInt32) : Decidable (Plain fs k i) := inferInstanceAs (Decidable (_ ∧ _))

instance (fs : Volume) (k : Kernel) (i : UInt32) (off n : Nat) : Decidable (Affordable fs k i off n) :=
  inferInstanceAs (Decidable (_ ∧ _))

instance (fs : Volume) (k : Kernel) : (op : FileOp) → Decidable (op.Allowed fs k)
  | .get _ => inferInstanceAs (Decidable (Kernel.Room _ _))
  | .put _ => inferInstanceAs (Decidable (_ ∧ _))
  | .write _ _ _ _ => inferInstanceAs (Decidable (_ ∧ (_ → _ → _)))
  | .read _ _ _ _ => inferInstanceAs (Decidable (Plain _ _ _))
  | .commit => .isTrue trivial

def FileOp.runAll (fs : Volume) : List FileOp → M (List Reply)
  | [] => pure []
  | op :: ops => do
    let reply ← op.run fs
    let replies ← FileOp.runAll fs ops
    return reply :: replies

def FileOp.applyAll (a : Arrays) : List FileOp → List Reply × Arrays
  | [] => ([],a)
  | op :: ops => ((op.apply a).1 :: (FileOp.applyAll (op.apply a).2 ops).1,(FileOp.applyAll (op.apply a).2 ops).2)

def FileOp.step (fs : Volume) (k : Kernel) (op : FileOp) : Option Kernel := (op.run fs k).toOption.map Prod.snd

structure Consistent (fs : Volume) (k : Kernel) : Prop where
  steady : Steady fs k.elsewhere k k.view (fun i => (k.cache i).ref) ∅ k.sys.log.lh.toFinset
  sound : Sound fs k.view

section

variable {fs : Volume} {v v' : Blockno → Block} {i : UInt32}

theorem Same.files (same : Same fs v v') : files fs v' = files fs v := by
  funext j
  by_cases inside : j.toNat < fs.sb.ninodes.toNat
  · rw [Fs.files,Fs.files,diskInode,diskInode,same _ (iblock_home fs inside)]
  · exact (files_outside inside).trans (files_outside inside).symm

theorem Same.behind (same : Same fs v v') (b : Blockno) (high : fs.sb.bmapstart.toNat ≤ b.toNat) : v' b = v b :=
  same b (Nat.le_trans (Nat.le_of_lt fs.inodestart_lt) high)

theorem Same.sound (same : Same fs v v') (sound : Sound fs v) :
    Sound fs v' ∧ ∀ j x, content (Fs.files fs v') v' j x = content (Fs.files fs v) v j x := by
  obtain ⟨owned,ptrs,contents⟩ := sound.owned.same_pointers (G := Fs.files fs v') (fun j => by rw [same.files]) same.behind
  refine ⟨⟨owned,fun j => ⟨by rw [same.files]; exact (sound.dense j).1,fun bn below => ?_⟩⟩,contents⟩
  rw [same.files] at below
  rw [ptrs _ (slot_leaf j bn).within]
  exact (sound.dense j).2 bn below

theorem Same.bytes (same : Same fs v v') (sound : Sound fs v) : bytes fs v' = bytes fs v := by
  funext j
  have contents := (same.sound sound).2
  rw [same.files] at contents
  rw [Fs.bytes,Fs.bytes,same.files]
  exact List.map_congr_left (fun x _ => contents j x)

@[simp] theorem length_bytes (fs : Volume) (v : Blockno → Block) (i : UInt32) :
    (bytes fs v i).length = (files fs v i).size.toNat := by
  rw [bytes,List.length_map,List.length_range]

theorem getElem?_bytes (fs : Volume) (v : Blockno → Block) (i : UInt32) (x : Nat) :
    (bytes fs v i)[x]? = if x < (files fs v i).size.toNat then some (content (files fs v) v i x) else none := by
  split_ifs with inside
  · rw [bytes,List.getElem?_map,List.getElem?_range inside]
    rfl
  · rw [List.getElem?_eq_none_iff,length_bytes]
    exact Nat.le_of_not_lt inside

theorem getElem?_splice (a : List UInt8) (n : Nat) (src : Nat → UInt8) {off : Nat} (start : off ≤ a.length) (x : Nat) :
    (splice a off n src)[x]? = if off ≤ x ∧ x < off + n then some (src (x - off)) else a[x]? := by
  have front : (a.take off).length = off := List.length_take_of_le start
  by_cases before : x < off
  · rw [if_neg (by omega),splice,List.append_assoc,List.getElem?_append_left (by omega),List.getElem?_take_of_lt before]
  · rw [splice,List.append_assoc,List.getElem?_append_right (by omega),front]
    by_cases inside : x < off + n
    · rw [if_pos ⟨by omega,inside⟩,List.getElem?_append_left (by simp; omega),List.getElem?_map,
        List.getElem?_range (by omega)]
      rfl
    · rw [if_neg (by omega),List.getElem?_append_right (by simp; omega),List.getElem?_drop]
      congr 1
      simp only [List.length_map,List.length_range]
      omega

theorem Rewrote.bytes {off n : Nat} {src : Nat → UInt8} (rewrote : Rewrote fs i off n src v v')
    (start : off ≤ (files fs v i).size.toNat) :
    Fs.bytes fs v' = update (Fs.bytes fs v) i (splice (Fs.bytes fs v i) off n src) := by
  funext j
  by_cases same : j = i
  · rw [same,update_self]
    refine List.ext_getElem? fun x => ?_
    have size := rewrote.size
    rw [getElem?_bytes,getElem?_splice _ _ _ (by rw [length_bytes]; exact start),getElem?_bytes]
    by_cases hit : off ≤ x ∧ x < off + n
    · rw [if_pos (by omega),if_pos hit,rewrote.content x (by omega),if_pos hit]
    · rw [if_neg hit]
      by_cases inside : x < (files fs v i).size.toNat
      · rw [if_pos (by omega),if_pos inside,rewrote.content x (by omega),if_neg hit]
      · rw [if_neg (by omega),if_neg inside]
  · rw [update_of_ne same,Fs.bytes,Fs.bytes,rewrote.others j same]
    exact List.map_congr_left (fun x _ => rewrote.foreign j same x)

theorem footprint_home {F : Files} {off len : Nat} (owned : Owned fs F v) {b : Blockno} (member : b ∈ footprint fs F v i off len) :
    fs.sb.inodestart.toNat ≤ b.toNat := by
  rcases Finset.mem_union.mp member with old | new
  · obtain ⟨bn,inside,rfl⟩ := Finset.mem_image.mp old
    exact owned.data_home (slot_leaf i bn).within (Finset.mem_filter.mp inside).2.1
  · have bitmap := Nat.le_of_lt fs.inodestart_lt
    split_ifs at new with none deep
    · exact absurd new (Finset.notMem_empty b)
    · rcases Finset.mem_insert.mp new with rfl | node
      · exact bitmap
      · rw [Finset.mem_singleton.mp node]
        exact owned.data_home (σ := ⟨(i,12),[]⟩) (Nat.zero_le _) deep.2
    · rw [Finset.mem_insert,or_iff_left (Finset.notMem_empty b)] at new
      rw [new]
      exact bitmap

theorem beyond_iff {off n : UInt32} : Beyond (files fs v i) off n ↔ Outside (Fs.bytes fs v i) off n := by
  rw [Beyond,Outside,length_bytes,UInt32.lt_iff_toNat_lt,UInt32.lt_iff_toNat_lt,UInt32.toNat_add]
  have small := off.toNat_lt
  have small' := n.toNat_lt
  omega

theorem refused_iff {off n : UInt32} :
    Refused (files fs v i) off n ↔ Outside (Fs.bytes fs v i) off n ∨ maxfile * bsize < off.toNat + n.toNat := by
  rw [Refused,beyond_iff]
  refine or_congr_right' fun inside => ?_
  have nowrap : ¬off + n < off := fun wrapped => inside (beyond_iff.mp (.inr wrapped))
  have most : maxFileBytes.toNat = maxfile * bsize := rfl
  rw [UInt32.lt_iff_toNat_lt,toNat_add_of_no_wrap nowrap,most]

theorem Track.tight {s : Sys} {budget : Finset Blockno} (track : Track fs s v ∅ ∅ budget) : Track fs s v ∅ ∅ s.log.lh.toFinset where
  __ := track
  logged _ member := List.mem_toFinset.mpr member
  home b member := track.home b (track.logged b (List.mem_toFinset.mp member))
  few := Nat.lt_of_le_of_lt (Nat.le_trans (List.toFinset_card_le _) track.length_le) track.few

variable {m : Nat} {k k' : Kernel} {refs : UInt32 → Nat} {held : Finset UInt32} {budget : Finset Blockno}

theorem Steady.tight (steady : Steady fs m k v refs held budget) :
    v = k.view ∧ Steady fs k.elsewhere k k.view (fun i => (k.cache i).ref) held k.sys.log.lh.toFinset := by
  obtain rfl : v = k.view := steady.track.view.symm
  obtain rfl : m = k.elsewhere := steady.elsewhere.symm
  obtain rfl : refs = fun i => (k.cache i).ref := funext fun i => (steady.counted i).symm
  exact ⟨rfl,{steady with track := steady.track.tight}⟩

theorem Steady.consistent (steady : Steady fs m k v refs ∅ budget) (sound : Sound fs v) : v = k.view ∧ Consistent fs k := by
  obtain ⟨rfl,tight⟩ := steady.tight
  exact ⟨rfl,tight,sound⟩

theorem Affordable.enough {off n : Nat} (affordable : Affordable fs k i off n) (sound : Sound fs k.view)
    (steady : Steady fs m k' k.view refs held k.sys.log.lh.toFinset) :
    Steady fs m k' k.view refs held (ledger fs k i off n) ∧
      Enough fs i off n (files fs k.view) k.view (ledger fs k i off n) := by
  have cost := affordable.2
  have most := limit_le fs
  have track : Track fs k'.sys k.view ∅ ∅ (ledger fs k i off n) := {steady.track with
    logged := fun b logged => Finset.mem_union_left _ (steady.track.logged b logged)
    home := fun b member => (Finset.mem_union.mp member).elim (steady.track.home b) (footprint_home sound.owned)
    few := by omega}
  exact ⟨{steady with track := track},Finset.subset_union_right,cost⟩

theorem commit_step {α : Type} {post : α → Kernel → Prop} {fail : Fault → Prop} {f : Unit → M α}
    (steady : Steady fs m k v refs held budget)
    (rest : ∀ k' v', Same fs v v' → Steady fs m k' v' refs held ∅ → Meets (f ()) k' post fail) :
    Meets (onSys (endOp fs) >>= fun _ => onSys beginOp >>= f) k post fail := by
  have track := steady.track
  obtain ⟨s₁,ran₁,idle,same⟩ := endOp_run track
  obtain ⟨s₂,ran₂,track₂⟩ := beginOp_run idle (by rw [← track.place.2]; exact Nat.zero_lt_of_lt track.short)
  refine .step (onSys_ok ran₁) (.step (onSys_ok ran₂) (rest {k with sys := s₂} (obs s₁.dev).view same ?_))
  exact {steady with
    track := track₂
    loaded := fun i member => by rw [same.files]; exact steady.loaded i member
    copies := fun i ip known copied => by rw [same.files]; exact steady.copies i ip known copied}

def FileOp.Done (fs : Volume) (op : FileOp) (k : Kernel) (reply : Reply) (k' : Kernel) : Prop :=
  Consistent fs k' ∧ (reply,Fs.bytes fs k'.view) = op.apply (Fs.bytes fs k.view) ∧
    (op.Quiet (Fs.bytes fs k.view) → Same fs k.view k'.view)

theorem FileOp.write_meets (consistent : Consistent fs k) {src : Nat → UInt8} {off n : UInt32} (plain : Plain fs k i)
    (affordable : ¬Refused (files fs k.view i) off n → 0 < n.toNat → Affordable fs k i off.toNat n.toNat) :
    Meets (FileOp.run fs (.write i src off n)) k (FileOp.Done fs (.write i src off n) k) (fun _ => False) := by
  obtain ⟨known,type,kind⟩ := plain
  have here := allocated_iff.mpr type
  have sound := consistent.sound
  have mine := Finset.mem_insert_self i ∅
  refine ilock_step consistent.steady (Finset.notMem_empty i) known here fun k₁ steady₁ => ?_
  by_cases refused : Refused (files fs k.view i) off n
  · refine (writeInode_refused steady₁ mine kind refused src).bind ?_
    rintro _ k₂ ⟨rfl,steady₂⟩
    refine iunlock_step steady₂ (Finset.notMem_empty i) fun k₃ steady₃ => ?_
    obtain ⟨view,consistent₃⟩ := steady₃.consistent sound
    refine .pure_intro ⟨consistent₃,?_,fun _ b _ => by rw [view]⟩
    rw [FileOp.apply,if_pos (refused_iff.mp refused),← view]
  · have affordable := affordable refused
    obtain ⟨budget,steady₁,enough⟩ : ∃ budget, Steady fs k.elsewhere k₁ k.view (fun i => (k.cache i).ref) (insert i ∅) budget ∧
        (0 < n.toNat → Enough fs i off.toNat n.toNat (files fs k.view) k.view budget) := by
      by_cases more : 0 < n.toNat
      · obtain ⟨wide,enough⟩ := (affordable more).enough sound steady₁
        exact ⟨_,wide,fun _ => enough⟩
      · exact ⟨_,steady₁,fun some_bytes => absurd some_bytes more⟩
    refine (writeInode_meets steady₁ mine sound kind refused enough
      (fun more less => absurd (affordable more).1 (Nat.not_le.mpr less)) src).bind ?_
    rintro _ k₂ ⟨rfl,v₂,budget₂,rewrote,steady₂⟩
    refine iunlock_step steady₂ (Finset.notMem_empty i) fun k₃ steady₃ => ?_
    obtain ⟨rfl,consistent₃⟩ := steady₃.consistent rewrote.sound
    have accepted := fun outside => refused (refused_iff.mpr outside)
    refine .pure_intro ⟨consistent₃,?_,fun quiet => absurd quiet accepted⟩
    have start : off.toNat ≤ (files fs k.view i).size.toNat := by
      by_contra behind
      exact accepted (.inl (.inl (by rw [length_bytes]; omega)))
    rw [FileOp.apply,if_neg accepted,rewrote.bytes start]

theorem FileOp.read_meets (consistent : Consistent fs k) {dst : Nat → UInt8} {off n : UInt32} (plain : Plain fs k i) :
    Meets (FileOp.run fs (.read i dst off n)) k (FileOp.Done fs (.read i dst off n) k) (fun _ => False) := by
  obtain ⟨known,type,kind⟩ := plain
  have here := allocated_iff.mpr type
  have mine := Finset.mem_insert_self i ∅
  refine ilock_step consistent.steady (Finset.notMem_empty i) known here fun k₁ steady₁ => ?_
  by_cases beyond : Beyond (files fs k.view i) off n
  · refine (readInode_beyond steady₁ mine kind beyond dst).bind ?_
    rintro _ k₂ ⟨rfl,steady₂⟩
    refine iunlock_step steady₂ (Finset.notMem_empty i) fun k₃ steady₃ => ?_
    obtain ⟨view,consistent₃⟩ := steady₃.consistent consistent.sound
    refine .pure_intro ⟨consistent₃,?_,fun _ b _ => by rw [view]⟩
    rw [FileOp.apply,if_pos (beyond_iff.mp beyond),← view]
  · refine (readInode_meets steady₁ mine kind ((consistent.sound.dense i).readable beyond) beyond dst).bind ?_
    rintro _ k₂ ⟨rfl,steady₂⟩
    refine iunlock_step steady₂ (Finset.notMem_empty i) fun k₃ steady₃ => ?_
    obtain ⟨view,consistent₃⟩ := steady₃.consistent consistent.sound
    refine .pure_intro ⟨consistent₃,?_,fun _ b _ => by rw [view]⟩
    rw [FileOp.apply,if_neg (fun outside => beyond (beyond_iff.mpr outside)),← view]
    dsimp only
    rw [length_bytes,readLength]
    have copied : poke dst 0 (min n.toNat ((files fs k.view i).size.toNat - off.toNat))
        (fun j => content (files fs k.view) k.view i (off.toNat + j)) =
        poke dst 0 (min n.toNat ((files fs k.view i).size.toNat - off.toNat))
        (fun j => (Fs.bytes fs k.view i).getD (off.toNat + j) 0) := by
      funext j
      rw [poke,poke]
      split_ifs with hit
      · rw [List.getD_eq_getElem?_getD,getElem?_bytes,if_pos (by omega)]
        rfl
      · rfl
    rw [copied]

theorem FileOp.run_meets (consistent : Consistent fs k) {op : FileOp} (allowed : op.Allowed fs k) :
    Meets (op.run fs) k (op.Done fs k) (fun _ => False) := by
  cases op with
  | get i =>
    refine iget_step consistent.steady allowed fun k₁ steady₁ _ => ?_
    obtain ⟨view,consistent₁⟩ := steady₁.consistent consistent.sound
    exact .pure_intro ⟨consistent₁,by rw [view]; rfl,fun _ b _ => by rw [view]⟩
  | put i =>
    refine iput_step consistent.steady (Finset.notMem_empty i) allowed.1 allowed.2 fun k₁ steady₁ => ?_
    obtain ⟨view,consistent₁⟩ := steady₁.consistent consistent.sound
    exact .pure_intro ⟨consistent₁,by rw [view]; rfl,fun _ b _ => by rw [view]⟩
  | write i src off n => exact FileOp.write_meets consistent allowed.1 allowed.2
  | read i dst off n => exact FileOp.read_meets consistent allowed
  | commit =>
    refine commit_step consistent.steady fun k₂ v₂ same steady₂ => ?_
    obtain ⟨view,consistent₂⟩ := steady₂.consistent (same.sound consistent.sound).1
    refine .pure_intro ⟨consistent₂,?_,fun _ b behind => ?_⟩
    · rw [← view,same.bytes consistent.sound]
      rfl
    · rw [← view]
      exact same b behind

theorem FileOp.apply_quiet {a : Arrays} {op : FileOp} (quiet : op.Quiet a) : (op.apply a).2 = a := by
  cases op with
  | write i src off n => exact congrArg Prod.snd (if_pos quiet)
  | read i dst off n =>
    rw [FileOp.apply]
    split_ifs <;> rfl
  | get i => rfl
  | put i => rfl
  | commit => rfl

/-- Every run returns what the arrays return. Calls that write nothing leave every block from the inode table
on as it was, the bitmap among them. -/
theorem files_refine_byte_arrays {ops : List FileOp} (start : Consistent fs k)
    (allowed : Throughout (FileOp.step fs) (fun k op => op.Allowed fs k) ops k) :
    ∃ replies k', FileOp.runAll fs ops k = .ok (replies,k') ∧ Consistent fs k' ∧
      (replies,Fs.bytes fs k'.view) = FileOp.applyAll (Fs.bytes fs k.view) ops ∧
      ((∀ op ∈ ops, op.Quiet (Fs.bytes fs k.view)) → Same fs k.view k'.view) := by
  induction ops generalizing k with
  | nil => exact ⟨[],k,rfl,start,rfl,fun _ _ _ => rfl⟩
  | cons op ops ih =>
    obtain ⟨reply,k₁,ran,consistent,result,quiet⟩ := (FileOp.run_meets start allowed.1).returns (fun _ => id)
    have stepped : FileOp.step fs k op = some k₁ := by
      rw [FileOp.step,ran]
      rfl
    obtain ⟨replies,k₂,rest,consistent₂,results,quiet₂⟩ := ih consistent (allowed.2 k₁ stepped)
    have head : reply = (op.apply (Fs.bytes fs k.view)).1 := congrArg Prod.fst result
    have arrays : Fs.bytes fs k₁.view = (op.apply (Fs.bytes fs k.view)).2 := congrArg Prod.snd result
    refine ⟨reply :: replies,k₂,?_,consistent₂,?_,fun all => ?_⟩
    · rw [FileOp.runAll,bind_ok ran,bind_ok rest]
      rfl
    · rw [FileOp.applyAll,← head,← arrays,← results]
    · have first := all op (List.mem_cons_self ..)
      have kept : Fs.bytes fs k₁.view = Fs.bytes fs k.view := arrays.trans (FileOp.apply_quiet first)
      have later := quiet₂ (fun op' member => by rw [kept]; exact all op' (List.mem_cons_of_mem _ member))
      exact fun b behind => (later b behind).trans (quiet first b behind)

end

/-- A disk whose bitmap marks the metadata, with nothing in the inode table. -/
def formatted : Blockno → Block :=
  update (fun _ => Bytes.zero bsize) 39 (fun i => if i.val < 5 then 0xff else 0)

/-- An empty file. -/
def emptyFile : Inode := ⟨1,tFile,0,0,1,0,fun _ => 0⟩

/-- A kernel in a transaction with one reference to the empty file. -/
def openedFile : Kernel where
  sys := ⟨cold (saved standard formatted emptyFile),⟨2,30,1,false,[]⟩⟩
  cache i := if i = 1 then ⟨1,false,none⟩ else ⟨0,false,none⟩
  entries := {1}
  elsewhere := 0
  cached i := by split_ifs with first <;> simp [first]

theorem files_single {ip : Inode} (first : ip.inum = 1) (type : ip.type ≠ 0) (i : UInt32) :
    files standard (saved standard formatted ip) i = if i = 1 then ip else blankInode i 0 := by
  have inside : ip.inum.toNat < standard.sb.ninodes.toNat := by
    rw [first]
    decide
  rw [files_saved inside,listed,if_pos ⟨inside,type⟩,first]
  by_cases same : i = 1
  · rw [same,if_pos rfl,update_self]
  · rw [if_neg same,update_of_ne same]
    have zero (b : Blockno) (low : b.toNat < standard.sb.bmapstart.toNat) : formatted b = Bytes.zero bsize := by
      refine update_of_ne ?_ _ _
      rintro rfl
      exact Nat.lt_irrefl _ low
    exact files_blank zero i

theorem sound_single {ip : Inode} (first : ip.inum = 1) (type : ip.type ≠ 0) (empty : ip.addrs = fun _ => 0) (size : ip.size = 0) :
    Sound standard (saved standard formatted ip) := by
  have inside : ip.inum.toNat < standard.sb.ninodes.toNat := by
    rw [first]
    decide
  have blank (i : UInt32) : (files standard (saved standard formatted ip) i).addrs = (fun _ => 0) ∧
      (files standard (saved standard formatted ip) i).size = 0 := by
    rw [files_single first type]
    split_ifs
    · exact ⟨empty,size⟩
    · exact ⟨rfl,rfl⟩
  refine sound_of_no_blocks (fun i => (blank i).1) (fun i => (blank i).2) fun z low => ?_
  have marked : ∀ z < 40, used standard formatted z = true := by decide
  rw [used,saved_other inside _ (Nat.le_refl _)]
  exact marked z (Nat.lt_succ_of_le low)

theorem fresh_track (some_blocks : 0 < fs.sb.nlog.toNat) (disk : Blockno → Block) :
    Track fs ⟨cold disk,⟨fs.sb.logstart,fs.sb.nlog.toNat,1,false,[]⟩⟩ disk ∅ ∅ ∅ where
  view := rfl
  held _ := rfl
  edited := Finset.empty_subset _
  settled _ _ _ := rfl
  listed := ⟨List.nodup_nil,fun b busy => by cases busy⟩
  pinned b := by simp [obs,cold]
  nodup := List.nodup_nil
  logged _ member := by cases member
  home b member := absurd member (Finset.notMem_empty b)
  few := by decide
  short := some_blocks
  running := rfl
  idle := rfl
  place := ⟨rfl,rfl⟩

theorem openedFile_consistent : Consistent standard openedFile := by
  refine ⟨⟨fresh_track (by decide) _,fun _ => rfl,fun i => ?_,fun i member => absurd member (Finset.notMem_empty i),
    fun i ip _ copied => ?_,rfl,by decide⟩,sound_single rfl (by decide) rfl rfl⟩
  · simp only [openedFile]
    split_ifs <;> rfl
  · simp only [openedFile] at copied
    split_ifs at copied

/-- A write over two blocks and one that wraps, a commit, a drop of the reference, and a read of the bytes from disk. -/
def reloadOps : List FileOp :=
  [.write 1 UInt8.ofNat 0 3000,.write 1 UInt8.ofNat 9 0xffffffff,.commit,.put 1,.get 1,.read 1 (fun _ => 0) 1 4000]

theorem byte_arrays_reloaded :
    ∃ replies k', FileOp.runAll standard reloadOps openedFile = .ok (replies,k') ∧
      (replies,bytes standard k'.view) = FileOp.applyAll (bytes standard openedFile.view) reloadOps := by
  obtain ⟨replies,k',ran,-,result,-⟩ := files_refine_byte_arrays openedFile_consistent
    (by decide +kernel : Throughout _ _ reloadOps openedFile)
  exact ⟨replies,k',ran,result⟩

/-- A write of 26 blocks just fits. -/
example : (FileOp.write 1 (fun _ => 7) 0 53248).Allowed standard openedFile := by decide +kernel

/-- A write of 27 blocks is accepted, and there are blocks for it, but it does not fit into the log. -/
theorem long_write_overflows_log :
    Consistent standard openedFile ∧ Plain standard openedFile 1 ∧
      need (files standard openedFile.view) openedFile.view 1 0 55296 ≤ space standard openedFile.view ∧
      ¬FileOp.Quiet (bytes standard openedFile.view) (.write 1 (fun _ => 7) 0 55296) ∧
      FileOp.run standard (.write 1 (fun _ => 7) 0 55296) openedFile = .error (.panic "too big a transaction") := by
  refine ⟨openedFile_consistent,by decide +kernel,by decide +kernel,?_,stopped_eq_some (by decide +kernel)⟩
  rintro ((behind | wraps) | long)
  · exact absurd behind (Nat.not_lt_zero _)
  · exact absurd wraps (by decide)
  · exact absurd long (by decide)

end Xv6Ext2.Fs
