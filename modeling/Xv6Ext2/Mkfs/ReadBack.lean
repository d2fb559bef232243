import Xv6Ext2.Mkfs.WellFormed

/-! The image of mkfs under the functions of the kernel: a lookup of each name in the root finds the inode of its
file, and reading that inode returns the bytes that mkfs was given. -/
namespace Xv6Ext2.Mkfs
open Lib Bio Log Fs Function

/-- `memmove(sb, bp->data, sizeof(*sb))` of `readsb`. -/
def readsb (b : Block) : Superblock := ⟨word b 0,word b 2,word b 3,word b 4,word b 5,word b 6⟩

/-- The kernel in its first transaction: neither buffers nor inodes are cached. -/
def booted (sb : Superblock) (disk : Blockno → Block) : Kernel where
  sys := ⟨cold disk,⟨sb.logstart,sb.nlog.toNat,1,false,[]⟩⟩
  cache _ := ⟨0,false,none⟩
  entries := ∅
  elsewhere := 0
  cached i := by simp

/-- `namei` of a name in the root, and `readi` of what it finds. -/
def readFile (fs : Volume) (name de dst : Nat → UInt8) (off n : UInt32) :
    M (Option (UInt32 × UInt32 × UInt32 × (Nat → UInt8))) := do
  iget rootino
  ilock fs rootino
  let found ← dirlookup fs rootino name de
  iunlockput fs rootino
  match found with
  | none => return none
  | some (inum,_) =>
    ilock fs inum
    let ip ← inode inum
    let (m,dst) ← readInode fs inum dst off n
    return some (inum,ip.size,m,dst)

def Input.key (f : Input) : List UInt8 := f.name.take dirsiz

def Distinct (inputs : List Input) : Prop := ([dot,dotdot,mnt] ++ inputs.map Input.key).Nodup

instance (inputs : List Input) : Decidable (Distinct inputs) := inferInstanceAs (Decidable (List.Nodup _))

section

variable {h : Host} {inputs : List Input} {fs : Volume} {v : Blockno → Block}

theorem cname_cstring {name : List UInt8} (plain : 0 ∉ name) (n : Nat) : cname (cstring name) n = name.take n := by
  induction name generalizing n with
  | nil => cases n <;> rfl
  | cons a name ih =>
    cases n with
    | zero => rfl
    | succ n =>
      have nonzero : a ≠ 0 := fun zero => plain (by simp [zero])
      rw [cname,cstring_cons_zero,if_neg nonzero,List.take_succ_cons]
      exact congrArg (a :: ·) (ih (fun member => plain (List.mem_cons_of_mem a member)) n)

theorem Input.plain (f : Input) : 0 ∉ f.name := by
  rw [Input.name]
  split_ifs
  · exact fun member => f.proper (List.mem_of_mem_tail member)
  · exact f.proper

theorem files_layout (same : fs.sb = standard.sb) (v : Blockno → Block) : files fs v = files standard v := by
  funext i
  rw [files,files,listed,listed,diskInode,diskInode,Fs.iblock,Fs.iblock,same]

theorem slots_layout (same : fs.sb = standard.sb) (v : Blockno → Block) (dp : UInt32) : slots fs v dp = slots standard v dp := by
  rw [slots,slots,files_layout same]

theorem readsb_superblock : readsb superblock = standard.sb := by decide +kernel

theorem seal_superblock (laid : Laid inputs h) : h.seal.image 1 = superblock := by
  have other : (1 : Blockno) ≠ iblock (rounded h).inum := by rw [rounded_inum]; decide
  have fixed : h.seal.image 1 = h.image 1 := by
    show view (h.save (rounded h)) 1 = h.image 1
    rw [view_other _ (by decide)]
    exact update_of_ne other _ _
  rw [fixed,laid.reserved 1 (by decide),if_pos rfl]

theorem keys_rootEntries (inputs : List Input) :
    (rootEntries inputs).map (fun e => cname (cstring e.2) dirsiz) = [dot,dotdot,mnt] ++ inputs.map Input.key := by
  have keys : (fileEntries inputs).map (fun e => cname (cstring e.2) dirsiz) = inputs.map Input.key := by
    rw [fileEntries,List.map_map]
    refine List.ext_getElem? fun k => ?_
    rw [List.getElem?_map,List.getElem?_map,List.getElem?_zipIdx]
    cases inputs[k]? with
    | none => rfl
    | some f => exact congrArg some (cname_cstring f.plain dirsiz)
  rw [rootEntries,List.map_append,keys]
  rfl

theorem getElem?_root (laid : Laid inputs h) {t : Nat} {a : List UInt8 × UInt16}
    (here : (slots standard h.seal.image rootino)[t]? = some (some a)) :
    ((rootEntries inputs).map fun e => cname (cstring e.2) dirsiz)[t]? = some a.1 ∧ t < 3 + inputs.length := by
  obtain ⟨m,slots⟩ := root_slots laid
  rw [slots] at here
  by_cases inside : t < (rootEntries inputs).length
  · rw [List.getElem?_append_left (by rwa [List.length_map]),List.getElem?_map,List.getElem?_eq_getElem inside] at here
    rw [List.getElem?_map,List.getElem?_eq_getElem inside,← length_rootEntries]
    cases here
    exact ⟨rfl,inside⟩
  · rw [List.getElem?_append_right (by rw [List.length_map]; omega),List.getElem?_replicate] at here
    split_ifs at here
    cases here

theorem root_unique (laid : Laid inputs h) (distinct : Distinct inputs) : (slots standard h.seal.image rootino).Unique := by
  intro i j a b first second same
  obtain ⟨left,-⟩ := getElem?_root laid first
  obtain ⟨right,-⟩ := getElem?_root laid second
  rw [keys_rootEntries] at left right
  have inside := (List.getElem?_eq_some_iff.mp left).1
  rw [same,← right] at left
  exact (List.getElem?_inj inside distinct).mp left

theorem root_record (laid : Laid inputs h) {k : Nat} {f : Input} (here : inputs[k]? = some f) :
    (slots standard h.seal.image rootino)[3 + k]? = some (some (f.key,UInt16.ofNat (fileno k).toNat)) := by
  obtain ⟨m,slots⟩ := root_slots laid
  have inside : k < inputs.length := (List.getElem?_eq_some_iff.mp here).1
  have entries : (rootEntries inputs)[3 + k]? = some (fileno k,f.name) := by
    rw [rootEntries,List.getElem?_append_right (Nat.le_add_right 3 k)]
    show (fileEntries inputs)[3 + k - 3]? = _
    rw [Nat.add_sub_cancel_left,fileEntries,List.getElem?_map,List.getElem?_zipIdx,here]
    simp
  rw [slots,List.getElem?_append_left (by rw [List.length_map,length_rootEntries]; omega),List.getElem?_map,entries]
  exact congrArg (fun key => some (some (key,_))) (cname_cstring f.plain dirsiz)

theorem root_readable (laid : Laid inputs h) {j : Nat} {a : List UInt8 × UInt16}
    (here : (slots standard h.seal.image rootino)[j]? = some (some a)) : Readable standard h.seal.image rootino a.1 := by
  have inside := (getElem?_root laid here).2
  have few : h.freeinode.toNat ≤ 200 := laid.built.few
  have count := laid.count
  intro t _ reaches x from' upto
  have early : t ≤ j := by
    by_contra late
    exact reaches j (by omega) a here rfl
  have near : x / bsize < maxfile := by
    show x / 2048 < 524
    omega
  refine ⟨near,?_⟩
  rw [seal_pointers laid (slot_leaf rootino _).within]
  refine ((laid.built.full rootino).blocks _ near).mpr ?_
  rw [root_size laid]
  show x / 2048 * 2048 < _
  omega

theorem seal_inode (laid : Laid inputs h) {i : UInt32} (other : i ≠ rootino) :
    files standard h.seal.image i = table h i ∧ Dense (files standard h.seal.image) h.seal.image i := by
  have same : files standard h.seal.image i = table h i := by rw [seal_table laid,update_of_ne other]
  refine ⟨same,by rw [same]; exact laid.built.limit i,fun bn below => ?_⟩
  rw [same] at below
  rw [seal_pointers laid (slot_leaf i bn).within]
  exact (laid.built.sound.dense i).2 bn below

theorem file_inode (laid : Laid inputs h) {k : Nat} {f : Input} (here : inputs[k]? = some f) :
    (fileno k).toNat = 3 + k ∧ fileno k ≠ rootino ∧ (files standard h.seal.image (fileno k)).type = tFile ∧
      (files standard h.seal.image (fileno k)).size.toNat = f.bytes.length ∧
      ∀ x < f.bytes.length, content (files standard h.seal.image) h.seal.image (fileno k) x = cstring f.bytes x := by
  have inside : k < inputs.length := (List.getElem?_eq_some_iff.mp here).1
  have few : h.freeinode.toNat ≤ 200 := laid.built.few
  have count := laid.count
  have value : (fileno k).toNat = 3 + k := fileno_toNat (by show 3 + k < 200; omega)
  have other : fileno k ≠ rootino := fun equal => absurd value (by rw [equal]; show 1 ≠ 3 + k; omega)
  have text := laid.files k f here
  have size : (table h (fileno k)).size.toNat = f.bytes.length := by rw [← length_text,text]
  have same := (seal_inode laid other).1
  have kind := (laid.kinds (fileno k) (by omega) (by omega)).1
  rw [if_neg (by omega)] at kind
  refine ⟨value,other,by rw [same,kind],by rw [same,size],fun x below => ?_⟩
  have byte := getElem?_text h (fileno k) x
  rw [text,if_pos (by omega),List.getElem?_eq_getElem below] at byte
  rw [seal_content laid,cstring,List.getD_eq_getElem _ _ below]
  exact (Option.some.inj byte).symm

theorem booted_steady (same : fs.sb = standard.sb) (disk : Blockno → Block) :
    Steady fs 0 (booted fs.sb disk) disk (fun _ => 0) ∅ ∅ where
  track := fresh_track (by rw [same]; decide) disk
  counted _ := rfl
  locked _ := rfl
  loaded i member := absurd member (Finset.notMem_empty i)
  copies _ _ positive := absurd positive (by decide)
  elsewhere := rfl
  few := (by decide : 0 + 0 ≤ ninode)

theorem readFile_found (laid : Laid inputs h) (same : fs.sb = standard.sb) {name : Nat → UInt8} {num : UInt16} {j : Nat}
    (found : (slots standard h.seal.image rootino).find (cname name dirsiz) = some (num,j)) (apart : num.toUInt32 ≠ rootino)
    (here : (files standard h.seal.image num.toUInt32).type ≠ 0) (kind : (files standard h.seal.image num.toUInt32).type ≠ tDev)
    {off n : UInt32} (within : ¬Beyond (files standard h.seal.image num.toUInt32) off n) (de dst : Nat → UInt8) :
    ∃ k', readFile fs name de dst off n (booted fs.sb h.seal.image) =
      .ok (some (num.toUInt32,(files standard h.seal.image num.toUInt32).size,
        UInt32.ofNat (readLength (files standard h.seal.image num.toUInt32) off n),
        poke dst 0 (readLength (files standard h.seal.image num.toUInt32) off n)
          (fun x => content (files standard h.seal.image) h.seal.image num.toUInt32 (off.toNat + x))),k') := by
  suffices meets : Meets (readFile fs name de dst off n) (booted fs.sb h.seal.image)
      (fun r _ => r = some (num.toUInt32,(files standard h.seal.image num.toUInt32).size,
        UInt32.ofNat (readLength (files standard h.seal.image num.toUInt32) off n),
        poke dst 0 (readLength (files standard h.seal.image num.toUInt32) off n)
          (fun x => content (files standard h.seal.image) h.seal.image num.toUInt32 (off.toNat + x)))) fun _ => False by
    obtain ⟨_,k',returns,rfl⟩ := meets.returns fun _ => id
    exact ⟨k',returns⟩
  have few : h.freeinode.toNat ≤ 200 := laid.built.few
  have count := laid.count
  have tables := files_layout same h.seal.image
  have rows := slots_layout same h.seal.image rootino
  have steady := booted_steady same h.seal.image
  have rootDir : (files standard h.seal.image rootino).type = tDir := (seal_dir laid).mpr (.inl rfl)
  have rootSize : (files standard h.seal.image rootino).size.toNat = (16 * (3 + inputs.length) / 2048 + 1) * 2048 := by
    rw [seal_table laid,update_self]
    exact rounded_size laid
  have root : Allocated fs h.seal.image rootino := by
    rw [allocated_iff,tables,rootDir]
    decide
  have dir : IsDir fs h.seal.image rootino := by
    rw [IsDir,tables,rootDir,rootSize]
    exact ⟨rfl,by omega⟩
  refine iget_step steady (.inr (by decide : 0 + 0 < ninode)) fun k₁ steady₁ _ => ?_
  refine ilock_step steady₁ (Finset.notMem_empty _) (by rw [update_self]) root fun k₂ steady₂ => ?_
  have readable : Readable fs h.seal.image rootino (cname name dirsiz) := by
    intro t below reaches
    rw [tables] at below ⊢
    rw [Reaches,rows] at reaches
    exact root_readable laid (Table.find_some found) t below reaches
  refine (dirlookup_readable steady₂ dir (Finset.mem_insert_self _ _) (by rw [tables,rootSize]; show _ ≤ 524 * 2048; omega)
    name de readable fun hit _ => .inr ?_).bind ?_
  · have single : k₂.entries ⊆ {rootino} := fun j member => by
      by_contra other
      rw [steady₂.mem_entries,update_of_ne (Finset.mem_singleton.not.mp other)] at member
      exact member rfl
    have few := Finset.card_le_card single
    rw [Finset.card_singleton] at few
    rw [steady₂.elsewhere,ninode]
    omega
  rintro _ k₃ ⟨rfl,steady₃,-⟩
  rw [rows,found] at steady₃ ⊢
  refine (iunlockput_last steady₃ (Finset.notMem_empty _) (.inr ?_)).bind fun _ k₄ steady₄ => ?_
  · rw [tables,(root_links laid).1]
    decide
  have file : Allocated fs h.seal.image num.toUInt32 := by
    rw [allocated_iff,tables]
    exact here
  refine ilock_step steady₄ (Finset.notMem_empty _) ?_ file fun k₅ steady₅ => ?_
  · rw [update_of_ne apart,grabbed,update_self]
    exact Nat.le_add_left 1 _
  have mine : num.toUInt32 ∈ insert num.toUInt32 (∅ : Finset UInt32) := Finset.mem_insert_self _ _
  have dense := (seal_inode laid apart).2
  refine inode_step steady₅ mine ?_
  rw [← tables] at within dense kind ⊢
  refine (readInode_meets steady₅ mine kind (dense.readable within) within dst).bind ?_
  rintro _ k₆ ⟨rfl,-⟩
  exact .pure_intro rfl

/-- The kernel reads back what mkfs was given. -/
theorem kernel_reads_back {inputs : List Input} (limit : ∀ f ∈ inputs, f.bytes.length ≤ maxfile * bsize)
    (inodes : 3 + inputs.length ≤ ninodes) (blocks : total inputs ≤ fssize) (distinct : Distinct inputs) :
    ((∀ f ∈ inputs, f.opens = true ∧ 47 ∉ f.arg) → ∃ h, main inputs start = .ok ((),h)) ∧
    ∀ h, main inputs start = .ok ((),h) → ∀ fs : Volume, fs.sb = readsb (h.image 1) →
      ∀ (k : Nat) (f : Input), inputs[k]? = some f → ∀ (name de dst : Nat → UInt8) (off n : UInt32), cname name dirsiz = f.key →
      off.toNat ≤ f.bytes.length → off.toNat + n.toNat < 2^32 →
      ∃ k', readFile fs name de dst off n (booted fs.sb h.image) =
        .ok (some (fileno k,UInt32.ofNat f.bytes.length,UInt32.ofNat (min n.toNat (f.bytes.length - off.toNat)),
          poke dst 0 (min n.toNat (f.bytes.length - off.toNat)) (fun x => cstring f.bytes (off.toNat + x))),k') := by
  refine ⟨fun proper => ?_,?_⟩
  · obtain ⟨g,-,ran⟩ | ⟨e,stops,-⟩ := main_cases inputs (fun _ => False) inodes
      (by rintro ⟨f,member,slash⟩; exact (proper f member).2 slash)
      (by rintro ⟨f,member,closed⟩; exact absurd (proper f member).1 (by rw [closed]; decide))
      (by rintro ⟨f,member,long⟩; exact absurd (limit f member) (Nat.not_le.mpr long)) (fun full => absurd blocks (Nat.not_le.mpr full))
    · exact ⟨g.seal,ran⟩
    · exact absurd stops id
  · intro h ran fs read k f here name de dst off n named start nowrap
    obtain ⟨g,laid,rfl⟩ := laid_of_main inodes ran
    rw [seal_superblock laid,readsb_superblock] at read
    obtain ⟨value,apart,kind,size,bytes⟩ := file_inode laid here
    have few : g.freeinode.toNat ≤ 200 := laid.built.few
    have count := laid.count
    have inside : k < inputs.length := (List.getElem?_eq_some_iff.mp here).1
    have number : (UInt16.ofNat (fileno k).toNat).toUInt32 = fileno k := number_toUInt32 (by show _ < 200; omega)
    have found : (slots standard g.seal.image rootino).find (cname name dirsiz) = some (UInt16.ofNat (fileno k).toNat,3 + k) := by
      rw [named,(root_unique laid distinct).find_eq_some_iff]
      exact root_record laid here
    have within : ¬Beyond (files standard g.seal.image (fileno k)) off n := by
      rintro (behind | wraps)
      · rw [UInt32.lt_iff_toNat_lt,size] at behind
        omega
      · rw [UInt32.lt_iff_toNat_lt,UInt32.toNat_add] at wraps
        omega
    have length : readLength (files standard g.seal.image (fileno k)) off n = min n.toNat (f.bytes.length - off.toNat) := by
      rw [readLength,size]
    have word : (files standard g.seal.image (fileno k)).size = UInt32.ofNat f.bytes.length := by
      rw [← size,UInt32.ofNat_toNat]
    obtain ⟨k',returns⟩ := readFile_found laid read found (by rw [number]; exact apart)
      (by rw [number,kind]; decide) (by rw [number,kind]; decide) (by rw [number]; exact within) de dst
    have copied : poke dst 0 (min n.toNat (f.bytes.length - off.toNat))
        (fun x => content (files standard g.seal.image) g.seal.image (fileno k) (off.toNat + x)) =
        poke dst 0 (min n.toNat (f.bytes.length - off.toNat)) (fun x => cstring f.bytes (off.toNat + x)) := by
      funext x
      rw [poke,poke]
      split_ifs with copies
      · exact bytes _ (by omega)
      · rfl
    refine ⟨k',returns.trans ?_⟩
    rw [number,word,length,copied]

theorem kernel_reads_back_lone : ∃ h k', main lone start = .ok ((),h) ∧
    readFile standard (cstring [97]) (fun _ => 0) (fun _ => 0) 0 1 (booted standard.sb h.image) =
      .ok (some (3,1,1,poke (fun _ => 0) 0 1 (fun x => cstring [65] (0 + x))),k') := by
  obtain ⟨g,laid,ran⟩ := main_single [97] (by decide) (by decide)
  have read : standard.sb = readsb (g.seal.image 1) := by rw [seal_superblock laid,readsb_superblock]
  have limit : ∀ f ∈ lone, f.bytes.length ≤ maxfile * bsize := by decide
  have distinct : Distinct lone := by decide
  obtain ⟨k',returns⟩ := (kernel_reads_back limit (by decide) (by decide) distinct).2 g.seal ran
    standard read 0 _ rfl (cstring [97]) (fun _ => 0) (fun _ => 0) 0 1 rfl (by decide) (by decide)
  exact ⟨g.seal,k',ran,returns⟩

/-- A file `mnt` is made as inode 3, but a lookup of its name finds the directory. -/
theorem mnt_hides_file : ∃ h k' dst, main [single mnt (by decide)] start = .ok ((),h) ∧
    (files standard h.image 3).type = tFile ∧
    readFile standard (cstring mnt) (fun _ => 0) (fun _ => 0) 0 1 (booted standard.sb h.image) =
      .ok (some (mntino,32,1,dst),k') := by
  obtain ⟨g,laid,ran⟩ := main_single mnt (by decide) (by decide)
  obtain ⟨m,rows⟩ := root_slots laid
  have found : (slots standard g.seal.image rootino).find (cname (cstring mnt) dirsiz) = some (2,2) := by
    rw [rows]
    rfl
  have dir : (files standard g.seal.image mntino).type = tDir := (seal_dir laid).mpr (.inr rfl)
  have size : (files standard g.seal.image mntino).size.toNat = 32 := by
    rw [(seal_inode laid (by decide)).1,← length_text,laid.mnt,mntText,List.length_append,length_entryBytes,length_entryBytes]
  have within : ¬Beyond (files standard g.seal.image mntino) 0 1 := by
    rintro (behind | wraps)
    · rw [UInt32.lt_iff_toNat_lt,size] at behind
      exact absurd behind (by decide)
    · exact absurd wraps (by decide)
  have two : (2 : UInt16).toUInt32 = mntino := rfl
  obtain ⟨k',returns⟩ := readFile_found laid rfl found (by decide) (by rw [two,dir]; decide) (by rw [two,dir]; decide) within
    (fun _ => 0) (fun _ => 0)
  have file := (file_inode laid (k := 0) rfl).2.2.1
  have length : readLength (files standard g.seal.image mntino) 0 1 = 1 := by
    rw [readLength,size]
    decide
  have word : (files standard g.seal.image mntino).size = 32 := UInt32.toNat_inj.mp size
  rw [two,length,word] at returns
  exact ⟨g.seal,k',_,ran,file,returns⟩

end

end Xv6Ext2.Mkfs
