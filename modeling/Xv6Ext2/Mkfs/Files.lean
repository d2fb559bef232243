import Mathlib
import Xv6Ext2.Mkfs.Image

/-! The files that mkfs makes, argument by argument. -/
namespace Xv6Ext2.Mkfs
open Lib Bio Log Fs Function

def entryBytes (inum : UInt32) (name : List UInt8) : List UInt8 := (List.range 16).map (dirent inum name)

def fileno (k : Nat) : UInt32 := UInt32.ofNat (3 + k)

def mntino : UInt32 := 2

def rootText (inputs : List Input) : List UInt8 :=
  entryBytes rootino dot ++ entryBytes rootino dotdot ++ entryBytes mntino mnt ++
    inputs.zipIdx.flatMap fun f => entryBytes (fileno f.2) f.1.name

def mntText : List UInt8 := entryBytes mntino dot ++ entryBytes rootino dotdot

def total (inputs : List Input) : Nat :=
  nmeta + blocksOf (16 * (3 + inputs.length)) + blocksOf 32 + (inputs.map fun f => blocksOf f.bytes.length).sum

structure Laid (inputs : List Input) (h : Host) : Prop where
  built : Built h
  count : h.freeinode.toNat = 3 + inputs.length
  root : text h rootino = rootText inputs
  mnt : text h mntino = mntText
  files : ∀ k f, inputs[k]? = some f → text h (fileno k) = f.bytes
  kinds : ∀ i, 0 < i.toNat → i.toNat < h.freeinode.toNat →
    (table h i).type = (if i.toNat < 3 then tDir else tFile) ∧ (table h i).nlink = 1
  spent : h.freeblock.toNat = total inputs
  reserved : ∀ b : Blockno, b.toNat < 32 → h.image b = if b = 1 then superblock else Bytes.zero bsize

section

variable {h h' : Host} {inputs : List Input} {fail : Exit → Prop}

theorem length_entryBytes (inum : UInt32) (name : List UInt8) : (entryBytes inum name).length = 16 := by
  rw [entryBytes,List.length_map,List.length_range]

theorem rootText_append (inputs : List Input) (f : Input) :
    rootText (inputs ++ [f]) = rootText inputs ++ entryBytes (fileno inputs.length) f.name := by
  simp [rootText,List.zipIdx_append,List.append_assoc]

theorem length_rootText (inputs : List Input) : (rootText inputs).length = 16 * (3 + inputs.length) := by
  induction inputs using List.reverseRecOn with
  | nil => simp [rootText,length_entryBytes]
  | append_singleton inputs f ih =>
    rw [rootText_append,List.length_append,ih,length_entryBytes,List.length_append,List.length_singleton]
    omega

theorem total_append (inputs : List Input) (f : Input) :
    total (inputs ++ [f]) + blocksOf (16 * (3 + inputs.length)) =
      total inputs + blocksOf (16 * (4 + inputs.length)) + blocksOf f.bytes.length := by
  simp only [total,List.length_append,List.length_singleton,List.map_append,List.map_singleton,List.sum_append,List.sum_singleton]
  have shape : 16 * (3 + (inputs.length + 1)) = 16 * (4 + inputs.length) := by omega
  rw [shape]
  omega

theorem fileno_toNat {k : Nat} (small : 3 + k < ninodes) : (fileno k).toNat = 3 + k := by
  simp only [ninodes] at small
  rw [fileno,UInt32.toNat_ofNat']
  omega

theorem text_blank {i : UInt32} (blank : (table h i).size = 0) : text h i = [] := by
  rw [text,blank]
  rfl

theorem Allotted.text {i : UInt32} {type : UInt16} (built : Built h) (allotted : Allotted i type h h') : text h' = text h := by
  funext j
  by_cases same : j = i
  · have before : (table h i).size = 0 := by
      rw [allotted.number,built.unused]
      rfl
    have after : (table h' i).size = 0 := by
      rw [allotted.inode,update_self]
      rfl
    rw [same,text_blank before,text_blank after]
  · have other : table h' j = table h j := by rw [allotted.inode,update_of_ne same]
    rw [Mkfs.text,Mkfs.text,other]
    exact List.map_congr_left fun x _ => allotted.contents j x

theorem map_cstring (bytes : List UInt8) : (List.range bytes.length).map (cstring bytes) = bytes := by
  refine List.ext_getElem (by simp) fun x left right => ?_
  rw [List.getElem_map,List.getElem_range,cstring,List.getD_eq_getElem _ _ right]

theorem chunks_meets {i : UInt32} (built : Built h) (here : Allocated standard (view h) i) (chunks : List Chunk)
    (limit : maxfile * bsize < (text h i).length + (chunks.flatMap Chunk.bytes).length → fail .abort)
    (room : fssize + blocksOf (text h i).length < h.freeblock.toNat + blocksOf (text h i ++ chunks.flatMap Chunk.bytes).length →
      fail .one) :
    Meets (chunks.forM fun c => iappend i (cstring c.bytes) c.bytes.length) h
      (fun _ h' => Texts i (chunks.flatMap Chunk.bytes) h h') fail := by
  induction chunks generalizing h with
  | nil => exact .pure_intro (.nil built i)
  | cons c chunks ih =>
    rw [List.flatMap_cons] at limit room ⊢
    change Meets (iappend i (cstring c.bytes) c.bytes.length >>= fun _ => chunks.forM _) h _ fail
    simp only [List.length_append] at limit room
    have order := blocksOf_mono (show (text h i).length + c.bytes.length ≤
      (text h i).length + (c.bytes.length + (chunks.flatMap Chunk.bytes).length) by omega)
    refine (append_meets built here c.positive (fun past => limit (by omega)) (fun past => room (by omega))).bind ?_
    intro _ h₁ first
    rw [map_cstring] at first
    have longer : text h₁ i = text h i ++ c.bytes := by rw [first.text,update_self]
    have spent := first.spent
    have still : Allocated standard (view h₁) i := by
      rw [allocated_table,(first.kind i).1]
      exact allocated_table.mp here
    rw [List.length_append] at spent
    refine (ih first.built still ?_ ?_).mono (fun _ h₂ rest => first.trans rest) (fun _ => id)
    · intro past
      rw [longer,List.length_append] at past
      exact limit (by omega)
    · intro past
      rw [longer,List.length_append,List.length_append,List.length_append] at past
      rw [← Nat.add_assoc] at room
      exact room (by omega)

theorem Allotted.kind {i j : UInt32} {type : UInt16} (allotted : Allotted i type h h') :
    (table h' j).type = (if j = i then type else (table h j).type) ∧ (table h' j).nlink = if j = i then 1 else (table h j).nlink := by
  rw [allotted.inode]
  by_cases same : j = i
  · simp [same,newInode]
  · simp [same]

theorem Built.allocated {i : UInt32} (built : Built h) (positive : 0 < i.toNat) (below : i.toNat < h.freeinode.toNat) :
    Allocated standard (view h) i := (built.inodes i).mpr ⟨positive,below⟩

theorem Allotted.count {i : UInt32} {type : UInt16} (allotted : Allotted i type h h') (more : h.freeinode.toNat < ninodes) :
    h'.freeinode.toNat = h.freeinode.toNat + 1 := by
  rw [allotted.next]
  exact count_toNat more

theorem Laid.added {f : Input} {h₁ h₂ h₃ : Host} (laid : Laid inputs h) (more : 3 + inputs.length < ninodes)
    (first : Allotted (fileno inputs.length) tFile h h₁)
    (second : Texts rootino (entryBytes (fileno inputs.length) f.name) h₁ h₂) (third : Texts (fileno inputs.length) f.bytes h₂ h₃) :
    Laid (inputs ++ [f]) h₃ := by
  have number := fileno_toNat more
  have count := laid.count
  have count₁ := first.count (by omega)
  have texts₁ := first.text laid.built
  have apart {i : UInt32} (low : i.toNat < 3 + inputs.length) : i ≠ fileno inputs.length := by
    rintro rfl
    omega
  have blank : text h (fileno inputs.length) = [] := by
    refine text_blank ?_
    rw [first.number,laid.built.unused]
    rfl
  have notRoot := apart (i := rootino) (by show 1 < _; omega)
  have notMnt := apart (i := mntino) (by show 2 < _; omega)
  have mntRoot : mntino ≠ rootino := by decide
  have inodes : h₃.freeinode = h₁.freeinode := third.inodes.trans second.inodes
  have kind (j : UInt32) : (table h₃ j).type = (table h₁ j).type ∧ (table h₃ j).nlink = (table h₁ j).nlink :=
    ⟨(third.kind j).1.trans (second.kind j).1,(third.kind j).2.trans (second.kind j).2⟩
  refine ⟨third.built,?_,?_,?_,fun k g given => ?_,fun j positive below => ?_,?_,fun b low => ?_⟩
  · rw [inodes,count₁,count,List.length_append,List.length_singleton]
    omega
  · rw [third.text,update_of_ne notRoot,second.text,update_self,texts₁,laid.root,rootText_append]
  · rw [third.text,update_of_ne notMnt,second.text,update_of_ne mntRoot,texts₁,laid.mnt]
  · by_cases old : k < inputs.length
    · rw [List.getElem?_append_left old] at given
      have numberk := fileno_toNat (k := k) (by omega)
      have rootk : fileno k ≠ rootino := by
        intro same
        have values := congrArg UInt32.toNat same
        rw [numberk] at values
        exact absurd values (by show ¬_ = 1; omega)
      rw [third.text,update_of_ne (apart (by omega)),second.text,update_of_ne rootk,texts₁]
      exact laid.files k g given
    · obtain ⟨rfl,rfl⟩ : k = inputs.length ∧ f = g := by
        rw [List.getElem?_append_right (by omega)] at given
        obtain ⟨short,same⟩ := List.getElem?_eq_some_iff.mp given
        rw [List.length_singleton] at short
        refine ⟨by omega,?_⟩
        rw [← same]
        simp
      rw [third.text,update_self,second.text,update_of_ne notRoot.symm,texts₁,blank,List.nil_append]
  · rw [inodes,count₁] at below
    rw [(kind j).1,(kind j).2,first.kind.1,first.kind.2]
    by_cases new : j = fileno inputs.length
    · rw [if_pos new,if_pos new,new,number,if_neg (by omega)]
      exact ⟨rfl,rfl⟩
    · rw [if_neg new,if_neg new]
      refine laid.kinds j positive ?_
      have : j.toNat ≠ (fileno inputs.length).toNat := fun equal => new (UInt32.toNat_inj.mp equal)
      omega
  · have sum := total_append inputs f
    have spent₂ := second.spent
    have spent₃ := third.spent
    have root₁ : text h₁ rootino = rootText inputs := by rw [texts₁,laid.root]
    have mine₂ : text h₂ (fileno inputs.length) = [] := by
      rw [second.text,update_of_ne notRoot.symm,texts₁,blank]
    have zero : blocksOf ([] : List UInt8).length = 0 := rfl
    have longer : 16 * (3 + inputs.length) + 16 = 16 * (4 + inputs.length) := by omega
    rw [List.length_append,root₁,length_rootText,length_entryBytes,longer,first.same,laid.spent] at spent₂
    rw [mine₂,zero,List.nil_append] at spent₃
    omega
  · rw [third.fixed b low,second.fixed b low,first.fixed b low,laid.reserved b low]

theorem addFile_meets (laid : Laid inputs h) (f : Input) (more : 3 + inputs.length < ninodes)
    (slash : 47 ∈ f.arg → fail .abort) (closed : f.opens = false → fail .one)
    (limit : maxfile * bsize < f.bytes.length → fail .abort) (room : fssize < total (inputs ++ [f]) → fail .one) :
    Meets (addFile f) h (fun _ h' => Laid (inputs ++ [f]) h') fail := by
  have sum := total_append inputs f
  have rootLength := length_rootText inputs
  have number := fileno_toNat more
  have count := laid.count
  have spent := laid.spent
  rw [addFile]
  by_cases slashed : 47 ∈ f.arg
  · rw [if_pos slashed]
    exact .of_error rfl (slash slashed)
  rw [if_neg slashed]
  by_cases missing : f.opens = false
  · rw [if_pos missing]
    exact .of_error rfl (closed missing)
  rw [if_neg missing]
  refine (ialloc_meets laid.built (by decide) (by omega)).bind ?_
  intro i h₁ allotted
  have texts₁ := allotted.text laid.built
  have count₁ := allotted.count (by omega)
  have inum : i = fileno inputs.length := UInt32.toNat_inj.mp (by rw [allotted.number,number,count])
  have notRoot : rootino ≠ i := by
    rw [inum]
    intro same
    have values := congrArg UInt32.toNat same
    rw [number] at values
    exact absurd values (by show ¬1 = _; omega)
  have root₁ : text h₁ rootino = rootText inputs := by rw [texts₁,laid.root]
  have here₁ : Allocated standard (view h₁) rootino := allotted.built.allocated (by decide) (by show 1 < _; omega)
  have free₁ : h₁.freeblock.toNat = total inputs := by rw [allotted.same,spent]
  have longer : 16 * (3 + inputs.length) + 16 = 16 * (4 + inputs.length) := by omega
  have tooShort : ¬maxfile * bsize < 16 * (4 + inputs.length) := by
    show ¬524 * 2048 < _
    simp only [ninodes] at more
    omega
  refine (append_meets allotted.built here₁ (by decide) ?_ ?_).bind ?_
  · rw [root₁,rootLength,longer]
    exact fun past => absurd past tooShort
  · rw [root₁,rootLength,longer,free₁]
    exact fun past => room (by omega)
  intro _ h₂ second
  have mine₂ : text h₂ i = [] := by
    rw [second.text,update_of_ne notRoot.symm,texts₁]
    refine text_blank ?_
    rw [allotted.number,laid.built.unused]
    rfl
  have spent₂ := second.spent
  rw [List.length_append,root₁,rootLength,List.length_map,List.length_range,longer,free₁] at spent₂
  have here₂ : Allocated standard (view h₂) i := by
    rw [allocated_table,(second.kind i).1,allotted.kind.1,if_pos rfl]
    decide
  have bytes : f.chunks.flatMap Chunk.bytes = f.bytes := rfl
  refine (chunks_meets second.built here₂ f.chunks ?_ ?_).mono ?_ (fun _ => id)
  · rw [mine₂,bytes]
    exact fun past => limit (by simpa using past)
  · have zero : blocksOf ([] : List UInt8).length = 0 := rfl
    rw [mine₂,bytes,zero,List.nil_append]
    exact fun past => room (by omega)
  intro _ h₃ third
  rw [inum] at allotted third
  exact laid.added more allotted (inum ▸ second) third

theorem total_mono (done : List Input) (f : Input) (rest : List Input) : total (done ++ [f]) ≤ total (done ++ f :: rest) := by
  have order := blocksOf_mono (show 16 * (3 + (done.length + 1)) ≤ 16 * (3 + (done.length + (rest.length + 1))) by omega)
  simp only [total,List.length_append,List.length_cons,List.length_nil,Nat.zero_add,List.map_append,List.map_cons,List.map_nil,
    List.sum_append,List.sum_cons,List.sum_nil]
  omega

theorem addFiles_meets {done : List Input} (laid : Laid done h) (rest : List Input) (more : 3 + (done.length + rest.length) ≤ ninodes)
    (slash : (∃ f ∈ rest, 47 ∈ f.arg) → fail .abort) (closed : (∃ f ∈ rest, f.opens = false) → fail .one)
    (limit : (∃ f ∈ rest, maxfile * bsize < f.bytes.length) → fail .abort) (room : fssize < total (done ++ rest) → fail .one) :
    Meets (rest.forM addFile) h (fun _ h' => Laid (done ++ rest) h') fail := by
  induction rest generalizing done h with
  | nil =>
    rw [List.append_nil]
    exact .pure_intro laid
  | cons f rest ih =>
    have order := total_mono done f rest
    rw [List.length_cons] at more
    change Meets (addFile f >>= fun _ => rest.forM addFile) h _ fail
    refine (addFile_meets laid f (by omega) (fun bad => slash ⟨f,by simp,bad⟩) (fun bad => closed ⟨f,by simp,bad⟩)
      (fun bad => limit ⟨f,by simp,bad⟩) (fun past => room (by omega))).bind ?_
    intro _ h₁ laid₁
    have shape : done ++ f :: rest = done ++ [f] ++ rest := by simp
    rw [shape] at room ⊢
    refine ih laid₁ ?_ ?_ ?_ ?_ room
    · rw [List.length_append,List.length_singleton]
      omega
    · rintro ⟨g,mem,bad⟩
      exact slash ⟨g,List.mem_cons_of_mem _ mem,bad⟩
    · rintro ⟨g,mem,bad⟩
      exact closed ⟨g,List.mem_cons_of_mem _ mem,bad⟩
    · rintro ⟨g,mem,bad⟩
      exact limit ⟨g,List.mem_cons_of_mem _ mem,bad⟩

theorem record_meets {i inum : UInt32} {name : List UInt8} (built : Built h) (here : Allocated standard (view h) i)
    (short : (text h i).length < 1600) (left : h.freeblock.toNat < 100) :
    Meets (iappend i (dirent inum name) 16) h (fun _ h' => Texts i (entryBytes inum name) h h') fail := by
  have count (n : Nat) : blocksOf n = (n + 2047) / 2048 + if 12 * 2048 < n then 1 else 0 := rfl
  refine append_meets built here (by decide) (fun past => absurd past ?_) (fun past => absurd past ?_)
  · show ¬524 * 2048 < _
    omega
  · rw [count,count,if_neg (by omega),if_neg (by omega)]
    simp only [fssize]
    omega

theorem Texts.record {i inum : UInt32} {name old : List UInt8} (texts : Texts i (entryBytes inum name) h h') (before : Mkfs.text h i = old)
    (some : 0 < old.length) (short : old.length + 16 ≤ 2048) : Mkfs.text h' i = old ++ entryBytes inum name ∧ h'.freeblock = h.freeblock := by
  have count (n : Nat) : blocksOf n = (n + 2047) / 2048 + if 12 * 2048 < n then 1 else 0 := rfl
  refine ⟨by rw [texts.text,update_self,before],UInt32.toNat_inj.mp ?_⟩
  have spent := texts.spent
  rw [List.length_append,length_entryBytes,before,count,count,if_neg (by omega),if_neg (by omega)] at spent
  omega

theorem Texts.first {i inum : UInt32} {name : List UInt8} (texts : Texts i (entryBytes inum name) h h') (before : Mkfs.text h i = []) :
    Mkfs.text h' i = entryBytes inum name ∧ h'.freeblock.toNat = h.freeblock.toNat + 1 := by
  refine ⟨by rw [texts.text,update_self,before,List.nil_append],?_⟩
  have spent := texts.spent
  rw [before,List.nil_append,length_entryBytes] at spent
  exact spent

theorem Texts.other {i j : UInt32} {new : List UInt8} (texts : Texts i new h h') (other : j ≠ i) : Mkfs.text h' j = Mkfs.text h j := by
  rw [texts.text,update_of_ne other]

theorem Texts.allocated {i j : UInt32} {new : List UInt8} (texts : Texts i new h h') (here : Allocated standard (view h) j) :
    Allocated standard (view h') j := by
  rw [allocated_table,(texts.kind j).1]
  exact allocated_table.mp here

theorem Built.text_unused (built : Built h) : text h h.freeinode = [] := by
  refine text_blank ?_
  rw [built.unused]
  rfl

theorem makeDirs_meets (built : Built h) (first : h.freeinode = 1) (fresh : h.freeblock.toNat = nmeta)
    (reserved : ∀ b : Blockno, b.toNat < 32 → h.image b = if b = 1 then superblock else Bytes.zero bsize) :
    Meets makeDirs h (fun _ h' => Laid [] h') fail := by
  have metas : nmeta = 40 := by decide
  have one : h.freeinode.toNat = 1 := by rw [first]; rfl
  have sixteen := length_entryBytes
  refine (ialloc_meets built (by decide) (by rw [one]; decide)).bind ?_
  intro root h₁ allotted₁
  have texts₁ := allotted₁.text built
  have count₁ := allotted₁.count (by rw [one]; decide)
  have root₁ : text h₁ root = [] := by rw [texts₁,allotted₁.number,built.text_unused]
  obtain rfl : root = rootino := allotted₁.number.trans first
  rw [if_neg (fun differ => differ rfl)]
  have here₁ := allotted₁.built.allocated (i := rootino) (by decide) (by show 1 < _; omega)
  refine (record_meets allotted₁.built here₁ (by rw [root₁]; decide) (by rw [allotted₁.same]; omega)).bind ?_
  intro _ h₂ texts₂
  obtain ⟨root₂,spent₂⟩ := texts₂.first root₁
  rw [allotted₁.same] at spent₂
  refine (record_meets texts₂.built (texts₂.allocated here₁) (by rw [root₂,sixteen]; decide) (by omega)).bind ?_
  intro _ h₃ texts₃
  obtain ⟨root₃,spent₃⟩ := texts₃.record root₂ (by rw [sixteen]; decide) (by rw [sixteen]; decide)
  have inodes₃ : h₃.freeinode = h₁.freeinode := texts₃.inodes.trans texts₂.inodes
  have two : h₃.freeinode.toNat = 2 := by rw [inodes₃,count₁,one]
  refine (ialloc_meets texts₃.built (by decide) (by rw [two]; decide)).bind ?_
  intro dir h₄ allotted₄
  have texts₄ := allotted₄.text texts₃.built
  have count₄ := allotted₄.count (by rw [two]; decide)
  have dir₄ : text h₄ dir = [] := by rw [texts₄,allotted₄.number,texts₃.built.text_unused]
  obtain rfl : dir = mntino := UInt32.toNat_inj.mp (by rw [allotted₄.number,two]; rfl)
  have apart : mntino ≠ rootino := by decide
  have root₄ : text h₄ rootino = entryBytes rootino dot ++ entryBytes rootino dotdot := by rw [texts₄,root₃]
  have hereRoot := allotted₄.built.allocated (i := rootino) (by decide) (by show 1 < _; omega)
  have hereMnt := allotted₄.built.allocated (i := mntino) (by decide) (by show 2 < _; omega)
  have spent₄ : h₄.freeblock.toNat = 41 := by rw [allotted₄.same,spent₃]; omega
  refine (record_meets allotted₄.built hereRoot (by rw [root₄,List.length_append,sixteen,sixteen]; decide) (by omega)).bind ?_
  intro _ h₅ texts₅
  obtain ⟨root₅,spent₅⟩ := texts₅.record root₄ (by rw [List.length_append,sixteen]; omega)
    (by rw [List.length_append,sixteen,sixteen]; decide)
  have dir₅ : text h₅ mntino = [] := (texts₅.other apart).trans dir₄
  refine (record_meets texts₅.built (texts₅.allocated hereMnt) (by rw [dir₅]; decide) (by rw [spent₅]; omega)).bind ?_
  intro _ h₆ texts₆
  obtain ⟨dir₆,spent₆⟩ := texts₆.first dir₅
  refine (record_meets texts₆.built (texts₆.allocated (texts₅.allocated hereMnt)) (by rw [dir₆,sixteen]; decide)
    (by rw [spent₆,spent₅]; omega)).mono ?_ (fun _ => id)
  intro _ h₇ texts₇
  obtain ⟨dir₇,spent₇⟩ := texts₇.record dir₆ (by rw [sixteen]; decide) (by rw [sixteen]; decide)
  have inodes₇ : h₇.freeinode.toNat = 3 := by rw [texts₇.inodes,texts₆.inodes,texts₅.inodes,count₄,two]
  refine ⟨texts₇.built,inodes₇,?_,?_,fun k f none => by simp at none,fun j positive below => ?_,?_,fun b low => ?_⟩
  · rw [texts₇.other apart.symm,texts₆.other apart.symm,root₅]
    simp [rootText]
  · exact dir₇
  · have later : (table h₇ j).type = (table h₄ j).type ∧ (table h₇ j).nlink = (table h₄ j).nlink :=
      ⟨(texts₇.kind j).1.trans ((texts₆.kind j).1.trans (texts₅.kind j).1),
        (texts₇.kind j).2.trans ((texts₆.kind j).2.trans (texts₅.kind j).2)⟩
    rw [inodes₇] at below
    rw [later.1,later.2,allotted₄.kind.1,allotted₄.kind.2,if_pos below]
    by_cases second : j = mntino
    · rw [if_pos second,if_pos second]
      exact ⟨rfl,rfl⟩
    · have values : j.toNat ≠ 2 := fun equal => second (UInt32.toNat_inj.mp equal)
      obtain rfl : j = rootino := UInt32.toNat_inj.mp (by show _ = 1; omega)
      rw [if_neg second,if_neg second,(texts₃.kind _).1,(texts₃.kind _).2,(texts₂.kind _).1,(texts₂.kind _).2,allotted₁.kind.1,
        allotted₁.kind.2,if_pos rfl,if_pos rfl]
      exact ⟨rfl,rfl⟩
  · rw [spent₇,spent₆,spent₅,spent₄]
    decide
  · rw [texts₇.fixed b low,texts₆.fixed b low,texts₅.fixed b low,allotted₄.fixed b low,texts₃.fixed b low,texts₂.fixed b low,
      allotted₁.fixed b low,reserved b low]

/-- The host before the first inode is made. -/
def blankHost : Host := ⟨update (fun _ => Bytes.zero bsize) 1 superblock,fssize,1,UInt32.ofNat nmeta⟩

theorem blank_image {b : Blockno} (other : b ≠ 1) : blankHost.image b = Bytes.zero bsize := by
  rw [blankHost]
  exact update_of_ne other superblock fun _ => Bytes.zero bsize

theorem blank_table (i : UInt32) : table blankHost i = blankInode i 0 := by
  by_cases inside : i.toNat < ninodes
  · have low := iblock_low inside
    have other : iblock i ≠ 1 := by
      intro same
      rw [same] at low
      exact absurd low.2 (by decide)
    have zero : view blankHost (iblock i) = Bytes.zero bsize := by
      rw [view_iblock inside,blank_image other]
    have type : u16 (Bytes.zero bsize).byte (ioffset i) = 0 := by simp [u16,leDecode_zero]
    refine if_neg fun here => here.2 ?_
    rw [diskInode,← iblock_standard,zero]
    exact type
  · exact files_outside inside

theorem blank_built : Built blankHost := by
  have count : blankHost.freeblock.toNat = 40 := by decide
  have most : fssize = 1000 := rfl
  have metas : nmeta = 40 := by decide
  have addrs (i : UInt32) : (table blankHost i).addrs = fun _ => 0 := by rw [blank_table]; rfl
  have size (i : UInt32) : (table blankHost i).size = 0 := by rw [blank_table]; rfl
  have none := ptr_of_no_blocks (v := view blankHost) addrs
  have bits (z : Nat) : used standard (view blankHost) z = decide (z < 40) := by rw [used_view (by omega),count]
  have last : standard.sb.bmapstart.toNat = 39 := rfl
  have owned := (sound_of_no_blocks addrs size fun z low => by rw [bits,decide_eq_true_eq]; omega).owned
  refine ⟨⟨⟨rfl,by omega,by omega,fun b behind => ?_⟩,owned⟩,fun i => ⟨fun bn _ => ?_,?_⟩,fun i => ?_,fun z _ => ?_,by decide,by decide,fun i => ?_,fun i x _ _ => ?_⟩
  · refine blank_image ?_
    rintro rfl
    exact absurd behind (by rw [count]; decide)
  · rw [none,size]
    exact iff_of_false (fun differ => differ rfl) (Nat.not_lt_zero _)
  · rw [addrs,size]
    exact iff_of_false (fun differ => differ rfl) (Nat.not_lt_zero _)
  · rw [size]
    exact Nat.zero_le _
  · rw [bits,decide_eq_true_eq,last]
    refine ⟨fun low => .inl (by omega),?_⟩
    rintro (low | ⟨σ,-,there,-⟩)
    · omega
    · exact absurd (none σ) there
  · have one : blankHost.freeinode.toNat = 1 := rfl
    rw [allocated_table,blank_table,one]
    exact iff_of_false (fun differ => differ rfl) (by omega)
  · rw [content,if_pos (none _)]

theorem zero_fill (k n length : Nat) (fits : k + n ≤ fssize) (upto : length = k) (a b : UInt32) :
    (List.range' k n).forM (fun i => wsect (UInt32.ofNat i) (Bytes.zero bsize)) (⟨fun _ => Bytes.zero bsize,length,a,b⟩ : Host) =
      .ok ((),⟨fun _ => Bytes.zero bsize,k + n,a,b⟩) := by
  induction n generalizing k length with
  | zero => rw [upto]; rfl
  | succ n ih =>
    have small : (UInt32.ofNat k).toNat = k := by
      simp only [fssize] at fits
      rw [UInt32.toNat_ofNat']
      omega
    have written : wsect (UInt32.ofNat k) (Bytes.zero bsize) (⟨fun _ => Bytes.zero bsize,length,a,b⟩ : Host) =
        .ok ((),⟨fun _ => Bytes.zero bsize,k + 1,a,b⟩) := by
      rw [wsect,small,upto,update_eq_self,max_eq_right (Nat.le_succ k)]
    change (wsect (UInt32.ofNat k) (Bytes.zero bsize) >>= fun _ => (List.range' (k + 1) n).forM _) _ = _
    rw [bind_ok written,ih (k + 1) (k + 1) (by omega) rfl]
    congr 3
    omega

def rounded (h : Host) : Inode :=
  {table h rootino with size := UInt32.ofNat (((table h rootino).size.toNat / bsize + 1) * bsize)}

def Host.seal (h : Host) : Host := {h.save (rounded h) with image := view (h.save (rounded h))}

theorem rounded_inum (h : Host) : (rounded h).inum = rootino := inum_files standard (view h) rootino

theorem finish_meets (laid : Laid inputs h) :
    Meets (do fixRoot; let used ← freeblock; balloc used.toNat) h (fun _ h' => h' = h.seal) fail := by
  have counted := laid.built.growing.toCounted
  have count := laid.count
  have here := laid.built.allocated (i := rootino) (by decide) (by show 1 < _; omega)
  have fixed : fixRoot h = .ok ((),h.save (rounded h)) := by
    have inside : rootino.toNat < ninodes := by decide
    rw [fixRoot,bind_ok (rinode_run counted here)]
    exact winode_run _ counted.length (rounded_inum h) inside
  refine .step fixed (.step (t := h.save (rounded h)) rfl ?_)
  have saved : Counted (h.save (rounded h)) := counted.save (by rw [rounded_inum]; decide)
  have small : (h.save (rounded h)).freeblock.toNat < bpb := Nat.lt_of_le_of_lt saved.high (by decide)
  rw [balloc,if_pos small]
  exact .of_ok (wsect_run (by rw [saved.length]; decide) _) rfl

theorem populate_meets (built : Built h) (fresh : h.freeinode = 1) (blocks : h.freeblock.toNat = nmeta)
    (low : ∀ b : Blockno, b.toNat < 32 → h.image b = if b = 1 then superblock else Bytes.zero bsize)
    (few : 3 + inputs.length ≤ ninodes) (slash : (∃ f ∈ inputs, 47 ∈ f.arg) → fail .abort)
    (closed : (∃ f ∈ inputs, f.opens = false) → fail .one)
    (limit : (∃ f ∈ inputs, maxfile * bsize < f.bytes.length) → fail .abort) (room : fssize < total inputs → fail .one) :
    Meets (do makeDirs; inputs.forM addFile; fixRoot; let used ← freeblock; balloc used.toNat) h
      (fun _ h' => ∃ g, Laid inputs g ∧ h' = g.seal) fail := by
  refine (makeDirs_meets built fresh blocks low).bind fun _ h₁ laid₁ => ?_
  refine (addFiles_meets laid₁ inputs (by simpa using few) slash closed limit (by simpa using room)).bind fun _ h₂ laid₂ => ?_
  rw [List.nil_append] at laid₂
  exact (finish_meets laid₂).mono (fun _ h₃ same => ⟨h₂,laid₂,same⟩) (fun _ => id)

theorem main_eq {s s₁ s₂ : Host}
    (zeroed : (List.range fssize).forM (fun i => wsect (UInt32.ofNat i) (Bytes.zero bsize)) s = .ok ((),s₁))
    (written : wsect 1 superblock s₁ = .ok ((),s₂)) :
    main inputs s = (do makeDirs; inputs.forM addFile; fixRoot; let used ← freeblock; balloc used.toNat : H Unit) s₂ := by
  rw [main,bind_ok zeroed,bind_ok written]

theorem main_start : main inputs start =
    (do makeDirs; inputs.forM addFile; fixRoot; let used ← freeblock; balloc used.toNat : H Unit) blankHost := by
  have filled := zero_fill 0 fssize 0 (by omega) rfl 1 (UInt32.ofNat nmeta)
  rw [Nat.zero_add,← List.range_eq_range'] at filled
  refine main_eq filled ?_
  rw [wsect,max_eq_left (by decide)]
  rfl

theorem blank_low (b : Blockno) : blankHost.image b = if b = 1 then superblock else Bytes.zero bsize := by
  by_cases one : b = 1
  · rw [one,if_pos rfl,blankHost]
    exact update_self 1 superblock fun _ => Bytes.zero bsize
  · rw [if_neg one,blank_image one]

theorem main_cases (inputs : List Input) (fail : Exit → Prop) (few : 3 + inputs.length ≤ ninodes) (slash : (∃ f ∈ inputs, 47 ∈ f.arg) → fail .abort)
    (closed : (∃ f ∈ inputs, f.opens = false) → fail .one)
    (limit : (∃ f ∈ inputs, maxfile * bsize < f.bytes.length) → fail .abort) (room : fssize < total inputs → fail .one) :
    (∃ g, Laid inputs g ∧ main inputs start = .ok ((),g.seal)) ∨ ∃ e, fail e ∧ main inputs start = .error e := by
  have fresh : blankHost.freeinode = 1 := rfl
  have blocks : blankHost.freeblock.toNat = nmeta := by decide
  have same : main inputs start = _ := main_start
  have built := blank_built
  have low := blank_low
  -- the host is a closed term, and nothing below is to run the program on it
  generalize blankHost = blank at fresh blocks same built low
  have meets := populate_meets built fresh blocks (fun b _ => low b) few slash closed limit room
  rw [same]
  generalize (do makeDirs; inputs.forM addFile; fixRoot; let used ← freeblock; balloc used.toNat : H Unit) = rest at meets
  cases ran : rest blank with
  | ok result =>
    obtain ⟨_,_⟩ := result
    obtain ⟨g,laid,rfl⟩ := meets.result ran
    exact .inl ⟨g,laid,rfl⟩
  | error e =>
    rw [Meets,ran] at meets
    exact .inr ⟨e,meets,rfl⟩

end

end Xv6Ext2.Mkfs
