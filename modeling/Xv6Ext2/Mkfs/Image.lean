import Xv6Ext2.Fs.ByteArrays
import Xv6Ext2.Mkfs.Append

/-! What the image is while mkfs runs: between two calls every file has exactly the blocks of its size, the bitmap
that would be written is exact, and the inodes below `freeinode` are in use. -/
namespace Xv6Ext2.Mkfs
open Lib Bio Log Fs Function

abbrev table (h : Host) : Files := files standard (view h)

structure Built (h : Host) : Prop where
  growing : Growing h (table h)
  full : ∀ i, Full (table h) (view h) i (table h i).size.toNat
  limit : ∀ i, (table h i).size.toNat ≤ maxfile * bsize
  exact : Exact standard (view h)
  some : 0 < h.freeinode.toNat
  few : h.freeinode.toNat ≤ ninodes
  inodes : ∀ i, Allocated standard (view h) i ↔ 0 < i.toNat ∧ i.toNat < h.freeinode.toNat
  tail : ∀ i x, x / bsize < maxfile → (table h i).size.toNat ≤ x → content (table h) (view h) i x = 0

section

variable {h h' : Host} {F F' : Files} {i : UInt32} {α : Type} {post : α → Host → Prop} {fail : Exit → Prop}

theorem allocated_table : Allocated standard (view h) i ↔ (table h i).type ≠ 0 := allocated_iff

theorem Built.sound (built : Built h) : Sound standard (view h) := by
  refine ⟨built.growing.owned,fun i => ⟨built.limit i,fun bn below => ?_⟩⟩
  exact ((built.full i).blocks bn (Nat.lt_of_mul_lt_mul_right (Nat.lt_of_lt_of_le below (built.limit i)))).mpr below

theorem iblock_standard (i : UInt32) : iblock i = Fs.iblock standard i := by
  rw [iblock,Fs.iblock,layout]

theorem iblock_low (inside : i.toNat < ninodes) : (iblock i).toNat < 39 ∧ 32 ≤ (iblock i).toNat := by
  rw [iblock_standard,iblock_toNat standard inside]
  have start : standard.sb.inodestart.toNat = 32 := rfl
  simp only [ninodes] at inside
  simp only [start,ipb,bsize]
  omega

theorem view_iblock (inside : i.toNat < ninodes) : view h (iblock i) = h.image (iblock i) := by
  rw [iblock_standard]
  exact view_other h (iblock_ne_bitmap standard inside)

theorem rinode_run (counted : Counted h) (here : Allocated standard (view h) i) : rinode i h = .ok (table h i,h) := by
  have inside : i.toNat < ninodes := here.1
  have low := (iblock_low inside).1
  have reads : rsect (iblock i) h = .ok (h.image (iblock i),h) := if_pos (by rw [counted.length]; simp only [fssize]; omega)
  rw [rinode,bind_ok reads,table,files_of_allocated here,diskInode,← iblock_standard,view_iblock inside]
  rfl

/-- The host after `winode`. -/
def Host.save (h : Host) (ip : Inode) : Host :=
  h.put (iblock ip.inum) ((h.image (iblock ip.inum)).patch (ioffset ip.inum) 64 (dinode ip).byte)

theorem winode_run (ip : Inode) (length : h.length = fssize) (inum : ip.inum = i) (inside : i.toNat < ninodes) :
    winode i ip h = .ok ((),h.save ip) := by
  subst inum
  have low := (iblock_low inside).1
  have below : (iblock ip.inum).toNat < h.length := by
    rw [length]
    simp only [fssize]
    omega
  have reads : rsect (iblock ip.inum) h = .ok (h.image (iblock ip.inum),h) := if_pos below
  rw [winode,bind_ok reads]
  exact wsect_run below _

theorem view_save {ip : Inode} (inside : ip.inum.toNat < ninodes) : view (h.save ip) = saved standard (view h) ip := by
  rw [Host.save,iblock_standard,view_put (iblock_ne_bitmap standard inside),saved,view_other h (iblock_ne_bitmap standard inside)]

theorem Counted.save (counted : Counted h) {ip : Inode} (inside : ip.inum.toNat < ninodes) : Counted (h.save ip) := by
  refine counted.put ?_ _
  have low := (iblock_low inside).1
  have start := counted.low
  have metas : nmeta = 40 := by decide
  omega

structure Extended (i : UInt32) (n : Nat) (p : Nat → UInt8) (h h' : Host) : Prop where
  rewrote : Rewrote standard i (table h i).size.toNat n p (view h) (view h')
  built : Built h'
  spent : h'.freeblock.toNat + blocksOf (table h i).size.toNat = h.freeblock.toNat + blocksOf ((table h i).size.toNat + n)
  inodes : h'.freeinode = h.freeinode
  fixed : ∀ b : Blockno, b.toNat < 32 → h'.image b = h.image b

theorem built_of_saved {n : Nat} {p : Nat → UInt8} {ip : Inode} (built : Built h) (grew : Grew i (table h i).size.toNat n p (table h) F' h h')
    (inside : ip.inum.toNat < ninodes) (addrs : ip.addrs = (F' i).addrs) (size : ip.size.toNat = (table h i).size.toNat + n)
    (limit : (table h i).size.toNat + n ≤ maxfile * bsize) (mine : table (h'.save ip) i = ip)
    (rewrote : Rewrote standard i (table h i).size.toNat n p (view h) (view (h'.save ip))) : Built (h'.save ip) := by
  have evolved := grew.wrote.evolved
  have others (j : UInt32) (other : j ≠ i) : table (h'.save ip) j = table h j := rewrote.others j other
  obtain ⟨-,pointers,contents⟩ := evolved.owned.same_pointers (G := table (h'.save ip)) (w := view (h'.save ip)) (fun j => by
      by_cases same : j = i
      · rw [same,mine,addrs]
      · rw [others j same,evolved.inode_of_ne same])
    (fun b behind => by rw [view_save inside]; exact saved_other inside b behind)
  have types (j : UInt32) : (table (h'.save ip) j).type = (table h j).type := by
    by_cases same : j = i
    · rw [same]
      exact rewrote.type
    · rw [others j same]
  refine ⟨⟨grew.growing.toCounted.save inside,rewrote.sound.owned⟩,fun j => ?_,fun j => ?_,rewrote.exact built.exact,?_,?_,fun j => ?_,fun j x near behind => ?_⟩
  · by_cases same : j = i
    · have full := grew.full
      rw [same,mine,size]
      refine ⟨fun bn near => ?_,?_⟩
      · rw [pointers _ (slot_leaf i bn).within]
        exact full.blocks bn near
      · rw [mine,addrs]
        exact full.node
    · have full := built.full j
      rw [others j same]
      refine ⟨fun bn near => ?_,?_⟩
      · rw [pointers _ (slot_leaf j bn).within,evolved.others _ (slot_leaf j bn).within (by rw [slot_root]; exact same)]
        exact full.blocks bn near
      · rw [others j same]
        exact full.node
  · by_cases same : j = i
    · rw [same,mine,size]
      exact limit
    · rw [others j same]
      exact built.limit j
  · show 0 < h'.freeinode.toNat
    rw [grew.inodes]
    exact built.some
  · show h'.freeinode.toNat ≤ ninodes
    rw [grew.inodes]
    exact built.few
  · show _ ↔ 0 < j.toNat ∧ j.toNat < h'.freeinode.toNat
    rw [grew.inodes,← built.inodes,allocated_table,allocated_table,types]
  · rw [contents]
    by_cases same : j = i
    · subst same
      rw [mine,size] at behind
      rw [grew.wrote.content x near,if_neg (by omega)]
      exact built.tail j x near (by omega)
    · rw [others j same] at behind
      rw [evolved.content_other same]
      exact built.tail j x near behind

theorem Grew.extended {n : Nat} {p : Nat → UInt8} (built : Built h) (here : Allocated standard (view h) i) (positive : 0 < n)
    (grew : Grew i (table h i).size.toNat n p (table h) F' h h') :
    Extended i n p h (h'.save {F' i with size := UInt32.ofNat ((table h i).size.toNat + n)}) := by
  have evolved := grew.wrote.evolved
  have self := evolved.inode_self
  have inum : (F' i).inum = i := by
    rw [self]
    exact inum_files standard (view h) i
  have limit : (table h i).size.toNat + n ≤ maxfile * bsize := by
    have inside := (grew.wrote.filled ((table h i).size.toNat + n - 1) (by omega) (by omega)).1
    have inside : ((table h i).size.toNat + n - 1) / 2048 < 524 := inside
    show _ ≤ 524 * 2048
    omega
  have value : (UInt32.ofNat ((table h i).size.toNat + n)).toNat = (table h i).size.toNat + n := by
    have limit : (table h i).size.toNat + n ≤ 524 * 2048 := limit
    rw [UInt32.toNat_ofNat']
    omega
  have inside : ({F' i with size := UInt32.ofNat ((table h i).size.toNat + n)} : Inode).inum.toNat < ninodes := by
    show (F' i).inum.toNat < _
    rw [inum]
    exact here.1
  obtain ⟨mine,rewrote⟩ := grew.wrote.rewrote_grown built.sound here (Nat.le_refl _) (by omega) limit value
  have addrs : ({F' i with size := UInt32.ofNat ((table h i).size.toNat + n)} : Inode).addrs = (F' i).addrs := rfl
  have size : ({F' i with size := UInt32.ofNat ((table h i).size.toNat + n)} : Inode).size.toNat = (table h i).size.toNat + n := value
  generalize ({F' i with size := UInt32.ofNat ((table h i).size.toNat + n)} : Inode) = ip at *
  rw [← view_save inside] at mine rewrote
  refine ⟨rewrote,built_of_saved built grew inside addrs size limit mine rewrote,grew.spent,grew.inodes,fun b low => ?_⟩
  have apart (h : Host) : view h b = h.image b := by
    refine view_other h ?_
    rintro rfl
    exact absurd low (by decide)
  have kept : (h'.save ip).image b = h'.image b := by
    refine update_of_ne ?_ _ _
    rintro rfl
    exact absurd low (Nat.not_lt.mpr (iblock_low inside).2)
  rw [kept,← apart h',← apart h]
  refine evolved.fixed b ?_
  have start : standard.sb.bmapstart.toNat = 39 := rfl
  omega

theorem iappend_meets {n : Nat} {p : Nat → UInt8} (built : Built h) (here : Allocated standard (view h) i) (positive : 0 < n)
    (limit : maxfile * bsize < (table h i).size.toNat + n → fail .abort)
    (room : fssize + blocksOf (table h i).size.toNat < h.freeblock.toNat + blocksOf ((table h i).size.toNat + n) → fail .one) :
    Meets (iappend i p n) h (fun _ h' => Extended i n p h h') fail := by
  refine .step (rinode_run built.growing.toCounted here) ?_
  refine (appendLoop_meets n built.growing (built.full i) (Nat.le_refl n) limit room).bind ?_
  rintro _ h' ⟨F',rfl,grew⟩
  have inum : (F' i).inum = i := by
    rw [grew.wrote.evolved.inode_self]
    exact inum_files standard (view h) i
  exact .of_ok (winode_run _ grew.growing.length inum here.1) (grew.extended built here positive)

/-- The inode that `ialloc` writes. -/
def newInode (i : UInt32) (type : UInt16) : Inode := ⟨i,type,0,0,1,0,fun _ => 0⟩

structure Allotted (i : UInt32) (type : UInt16) (h h' : Host) : Prop where
  number : i = h.freeinode
  built : Built h'
  inode : table h' = update (table h) i (newInode i type)
  next : h'.freeinode = h.freeinode + 1
  same : h'.freeblock = h.freeblock
  contents : ∀ j x, content (table h') (view h') j x = content (table h) (view h) j x
  fixed : ∀ b : Blockno, b.toNat < 32 → h'.image b = h.image b

/-- The host after `freeinode++`. -/
def Host.count (h : Host) : Host := {h with freeinode := h.freeinode + 1}

theorem Built.unused (built : Built h) : table h h.freeinode = blankInode h.freeinode 0 := by
  refine if_neg fun here => ?_
  have used := (built.inodes h.freeinode).mp here
  omega

theorem count_toNat (more : h.freeinode.toNat < ninodes) : h.count.freeinode.toNat = h.freeinode.toNat + 1 :=
  toNat_succ (by simp only [ninodes] at more; omega)

theorem Built.saved (built : Built h) (ip : Inode) (inside : ip.inum.toNat < ninodes) (kind : ip.type ≠ 0)
    (size : ip.size = (table h ip.inum).size) (addrs : ip.addrs = (table h ip.inum).addrs) :
    Retagged standard ip (view h) (view (h.save ip)) ∧ Growing (h.save ip) (table (h.save ip)) ∧
      (∀ j, Full (table (h.save ip)) (view (h.save ip)) j (table (h.save ip) j).size.toNat) ∧
      ∀ j, (table (h.save ip) j).size.toNat ≤ maxfile * bsize := by
  have tagged := saved_retagged built.sound inside kind size addrs
  rw [← view_save inside] at tagged
  have sizes (j : UInt32) : (table (h.save ip) j).size = (table h j).size := by
    rw [table,tagged.table]
    by_cases same : j = ip.inum
    · rw [same,update_self,size]
    · rw [update_of_ne same]
  have pointers (j : UInt32) : (table (h.save ip) j).addrs = (table h j).addrs := by
    rw [table,tagged.table]
    by_cases same : j = ip.inum
    · rw [same,update_self,addrs]
    · rw [update_of_ne same]
  obtain ⟨-,ptrs,-⟩ := built.growing.owned.same_pointers (w := view (h.save ip)) pointers
    (fun b behind => by rw [view_save inside]; exact saved_other inside b behind)
  refine ⟨tagged,⟨built.growing.toCounted.save inside,tagged.sound.owned⟩,fun j => ⟨fun bn near => ?_,?_⟩,fun j => ?_⟩
  · rw [ptrs _ (slot_leaf j bn).within,sizes]
    exact (built.full j).blocks bn near
  · rw [pointers,sizes]
    exact (built.full j).node
  · rw [sizes]
    exact built.limit j

theorem ialloc_meets {type : UInt16} (built : Built h) (kind : type ≠ 0) (more : h.freeinode.toNat < ninodes) :
    Meets (ialloc type) h (fun i h' => Allotted i type h h') fail := by
  have blank := built.unused
  have ran := winode_run (h := h.count) (newInode h.freeinode type) built.growing.length rfl more
  refine .step (t := h.count) rfl (.step ran (.pure_intro ?_))
  have size : (newInode h.freeinode type).size = (table h h.freeinode).size := by rw [blank]; rfl
  have addrs : (newInode h.freeinode type).addrs = (table h h.freeinode).addrs := by rw [blank]; rfl
  obtain ⟨tagged,growing,full,limit⟩ := built.saved (newInode h.freeinode type) more kind size addrs
  have tables : table (h.save (newInode h.freeinode type)) = update (table h) h.freeinode (newInode h.freeinode type) :=
    tagged.table
  have next := count_toNat more
  have kind' : (newInode h.freeinode type).type ≠ 0 := kind
  have low : 32 ≤ (iblock (newInode h.freeinode type).inum).toNat := (iblock_low more).2
  refine ⟨rfl,?_,tables,rfl,rfl,tagged.content,fun b below => ?_⟩
  · refine ⟨⟨⟨growing.length,growing.low,growing.high,growing.blank⟩,growing.owned⟩,full,limit,tagged.exact built.exact,?_,?_,fun j => ?_,fun j x near behind => ?_⟩
    · show 0 < h.count.freeinode.toNat
      omega
    · show h.count.freeinode.toNat ≤ ninodes
      omega
    · show Allocated standard (view (h.save (newInode h.freeinode type))) j ↔ 0 < j.toNat ∧ j.toNat < h.count.freeinode.toNat
      rw [allocated_table,next]
      by_cases same : j = h.freeinode
      · have first := built.some
        rw [tables,same,update_self]
        exact iff_of_true kind' (by omega)
      · have apart : j.toNat ≠ h.freeinode.toNat := fun equal => same (UInt32.toNat_inj.mp equal)
        rw [tables,update_of_ne same,← allocated_table,built.inodes]
        omega
    · have same : content (table (h.save (newInode h.freeinode type))) (view (h.save (newInode h.freeinode type))) j x =
          content (table h) (view h) j x := tagged.content j x
      refine same.trans (built.tail j x near ?_)
      have behind : (table (h.save (newInode h.freeinode type)) j).size.toNat ≤ x := behind
      rw [tables] at behind
      by_cases new : j = h.freeinode
      · rwa [new,update_self,size,← new] at behind
      · rwa [update_of_ne new] at behind
  · refine update_of_ne ?_ _ _
    rintro rfl
    exact absurd below (Nat.not_lt.mpr low)

def text (h : Host) (i : UInt32) : List UInt8 := (List.range (table h i).size.toNat).map (content (table h) (view h) i)

theorem length_text (h : Host) (i : UInt32) : (text h i).length = (table h i).size.toNat := by
  rw [text,List.length_map,List.length_range]

structure Texts (i : UInt32) (new : List UInt8) (h h' : Host) : Prop where
  built : Built h'
  text : text h' = update (text h) i (text h i ++ new)
  kind : ∀ j, (table h' j).type = (table h j).type ∧ (table h' j).nlink = (table h j).nlink
  spent : h'.freeblock.toNat + blocksOf (Mkfs.text h i).length = h.freeblock.toNat + blocksOf (Mkfs.text h i ++ new).length
  inodes : h'.freeinode = h.freeinode
  fixed : ∀ b : Blockno, b.toNat < 32 → h'.image b = h.image b

theorem Extended.texts {n : Nat} {p : Nat → UInt8} (extended : Extended i n p h h') : Texts i ((List.range n).map p) h h' := by
  have rewrote := extended.rewrote
  have size : (table h' i).size.toNat = (table h i).size.toNat + n := rewrote.size.trans (max_eq_right (Nat.le_add_right _ _))
  refine ⟨extended.built,?_,fun j => ?_,?_,extended.inodes,extended.fixed⟩
  · funext j
    by_cases same : j = i
    · rw [same,update_self]
      refine List.ext_getElem ?_ fun x left right => ?_
      · rw [length_text,List.length_append,length_text,List.length_map,List.length_range,size]
      · have below : x < (table h' i).size.toNat := by rwa [length_text] at left
        have value : (text h' i)[x] = content (table h') (view h') i x := by simp [text]
        rw [value,rewrote.content x below,List.getElem_append]
        by_cases old : x < (table h i).size.toNat
        · rw [if_neg (by omega),dif_pos (by rw [length_text]; exact old)]
          simp [text]
        · rw [if_pos (by omega),dif_neg (by rw [length_text]; exact old)]
          simp [length_text]
    · rw [update_of_ne same,text,text]
      have others : table h' j = table h j := rewrote.others j same
      rw [others]
      exact List.map_congr_left fun x _ => rewrote.foreign j same x
  · by_cases same : j = i
    · rw [same]
      exact ⟨rewrote.type,by rw [table,rewrote.self]⟩
    · have others : table h' j = table h j := rewrote.others j same
      rw [others]
      exact ⟨rfl,rfl⟩
  · have spent := extended.spent
    rw [length_text,List.length_append,length_text,List.length_map,List.length_range]
    exact spent

theorem Texts.nil (built : Built h) (i : UInt32) : Texts i [] h h := by
  refine ⟨built,?_,fun _ => ⟨rfl,rfl⟩,by rw [List.append_nil],rfl,fun _ _ => rfl⟩
  rw [List.append_nil,update_eq_self]

theorem Texts.trans {h₁ h₂ : Host} {a b : List UInt8} (first : Texts i a h h₁) (second : Texts i b h₁ h₂) : Texts i (a ++ b) h h₂ := by
  have here : Mkfs.text h₁ i = Mkfs.text h i ++ a := by rw [first.text,update_self]
  refine ⟨second.built,?_,fun j => ?_,?_,second.inodes.trans first.inodes,fun b low => (second.fixed b low).trans (first.fixed b low)⟩
  · rw [second.text,first.text,update_self,update_idem,List.append_assoc]
  · exact ⟨(second.kind j).1.trans (first.kind j).1,(second.kind j).2.trans (first.kind j).2⟩
  · have spent := first.spent
    have spent' := second.spent
    rw [here] at spent'
    rw [List.append_assoc] at spent'
    omega

theorem append_meets {n : Nat} {p : Nat → UInt8} (built : Built h) (here : Allocated standard (view h) i) (positive : 0 < n)
    (limit : maxfile * bsize < (text h i).length + n → fail .abort)
    (room : fssize + blocksOf (text h i).length < h.freeblock.toNat + blocksOf ((text h i).length + n) → fail .one) :
    Meets (iappend i p n) h (fun _ h' => Texts i ((List.range n).map p) h h') fail := by
  rw [length_text] at limit room
  exact (iappend_meets built here positive limit room).mono (fun _ _ extended => extended.texts) (fun _ => id)

end

end Xv6Ext2.Mkfs
