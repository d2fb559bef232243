import Mathlib
import Xv6Ext2.Mkfs.Files

/-! What mkfs leaves in the image: the blocks and the indexes of every file, the bitmap, and the link counts of the
directories. Two of these go wrong. The size of the root is rounded up behind its last block when its records fill
that block, and the entry `..` of `mnt` is not counted as a link of the root. -/
namespace Xv6Ext2.Mkfs
open Lib Bio Log Fs Function

def names (d : UInt32) : Option (List UInt8 × UInt16) → Bool
  | some (name,inum) => name ≠ dot ∧ inum.toUInt32 = d
  | none => false

/-- The number of entries other than `.` that name `d`. -/
def mentions (v : Blockno → Block) (d : UInt32) : Nat :=
  ∑ j ∈ Finset.range ninodes,
    if (files standard v (UInt32.ofNat j)).type = tDir then (slots standard v (UInt32.ofNat j)).countP (names d) else 0

/-- The image is well formed but for the link counts. -/
structure Consistent (h : Host) : Prop where
  assigned : nmeta ≤ h.freeblock.toNat ∧ h.freeblock.toNat ≤ fssize
  inodes : h.freeinode.toNat ≤ ninodes
  blocks : ∀ σ : Place, σ.Within depth → ptr (files standard h.image) h.image σ ≠ 0 →
    nmeta ≤ (ptr (files standard h.image) h.image σ).toNat ∧ (ptr (files standard h.image) h.image σ).toNat < fssize
  indexes : ∀ i bn, bn < maxfile ∧ ptr (files standard h.image) h.image (slot i bn) ≠ 0 ↔
    bn < ((files standard h.image i).size.toNat + bsize - 1) / bsize
  once : Slot.Distinct depth (ptr (files standard h.image) h.image)
  bitmap : ∀ z < bpb, used standard h.image z = true ↔
    z < nmeta ∨ ∃ σ : Place, σ.Within depth ∧ ptr (files standard h.image) h.image σ ≠ 0 ∧
      (ptr (files standard h.image) h.image σ).toNat = z

/-- The link count of a directory is the number of entries that name it. -/
def Counts (h : Host) (d : UInt32) : Prop := (files standard h.image d).nlink.toNat = mentions h.image d

structure WellFormed (h : Host) : Prop extends Consistent h where
  links : ∀ d, (files standard h.image d).type = tDir → Counts h d

section

variable {h : Host} {inputs : List Input} {i : UInt32}

theorem seal_image (h : Host) : h.seal.image = saved standard (view h) (rounded h) := by
  have inside : (rounded h).inum.toNat < ninodes := by rw [rounded_inum]; decide
  exact view_save inside

theorem seal_table (laid : Laid inputs h) : files standard h.seal.image = update (table h) rootino (rounded h) := by
  have count := laid.count
  have inside : (rounded h).inum.toNat < standard.sb.ninodes.toNat := by rw [rounded_inum]; decide
  have kind : (rounded h).type ≠ 0 := by
    have root := (laid.kinds rootino (by decide) (by show 1 < _; omega)).1
    show (table h rootino).type ≠ 0
    rw [root]
    decide
  rw [seal_image,files_saved inside,listed,if_pos ⟨inside,kind⟩,rounded_inum]

theorem seal_addrs (laid : Laid inputs h) (j : UInt32) : (files standard h.seal.image j).addrs = (table h j).addrs := by
  rw [seal_table laid]
  by_cases same : j = rootino
  · rw [same,update_self]
    rfl
  · rw [update_of_ne same]

theorem seal_behind (h : Host) (b : Blockno) (behind : standard.sb.bmapstart.toNat ≤ b.toNat) : h.seal.image b = view h b := by
  have inside : (rounded h).inum.toNat < standard.sb.ninodes.toNat := by rw [rounded_inum]; decide
  rw [seal_image]
  exact saved_other inside b behind

theorem seal_pointers (laid : Laid inputs h) {σ : Place} (within : σ.Within depth) :
    ptr (files standard h.seal.image) h.seal.image σ = ptr (table h) (view h) σ :=
  (laid.built.growing.owned.same_pointers (seal_addrs laid) (seal_behind h)).2.1 σ within

theorem seal_content (laid : Laid inputs h) (j : UInt32) (x : Nat) :
    content (files standard h.seal.image) h.seal.image j x = content (table h) (view h) j x :=
  (laid.built.growing.owned.same_pointers (seal_addrs laid) (seal_behind h)).2.2 j x

theorem root_size (laid : Laid inputs h) : (table h rootino).size.toNat = 16 * (3 + inputs.length) := by
  rw [← length_text,laid.root,length_rootText]

theorem rounded_size (laid : Laid inputs h) :
    (rounded h).size.toNat = (16 * (3 + inputs.length) / bsize + 1) * bsize := by
  have few : h.freeinode.toNat ≤ 200 := laid.built.few
  have count := laid.count
  show (UInt32.ofNat (((table h rootino).size.toNat / 2048 + 1) * 2048)).toNat = (_ / 2048 + 1) * 2048
  rw [root_size laid,UInt32.toNat_ofNat']
  omega

theorem root_indexes (laid : Laid inputs h) :
    (∀ bn, bn < maxfile ∧ ptr (files standard h.seal.image) h.seal.image (slot rootino bn) ≠ 0 ↔
      bn < ((files standard h.seal.image rootino).size.toNat + bsize - 1) / bsize) ↔ (inputs.length + 3) % 128 ≠ 0 := by
  have few : h.freeinode.toNat ≤ 200 := laid.built.few
  have count := laid.count
  have size : (rounded h).size.toNat = (16 * (3 + inputs.length) / 2048 + 1) * 2048 := rounded_size laid
  have rounds : ((16 * (3 + inputs.length) / 2048 + 1) * 2048 + 2048 - 1) / 2048 = 16 * (3 + inputs.length) / 2048 + 1 := by omega
  have full (bn : Nat) (near : bn < 524) : ptr (table h) (view h) (slot rootino bn) ≠ 0 ↔ bn * 2048 < 16 * (3 + inputs.length) := by
    rw [← root_size laid]
    exact (laid.built.full rootino).blocks bn near
  have shape (bn : Nat) : (bn < maxfile ∧ ptr (files standard h.seal.image) h.seal.image (slot rootino bn) ≠ 0 ↔
      bn < ((files standard h.seal.image rootino).size.toNat + bsize - 1) / bsize) ↔
      (bn < 524 ∧ bn * 2048 < 16 * (3 + inputs.length) ↔ bn < 16 * (3 + inputs.length) / 2048 + 1) := by
    rw [seal_pointers laid (slot_leaf rootino bn).within,seal_table laid,update_self]
    show (bn < 524 ∧ _ ↔ bn < ((rounded h).size.toNat + 2048 - 1) / 2048) ↔ _
    rw [and_congr_right (full bn),size,rounds]
  rw [forall_congr' shape]
  constructor
  · intro all
    have last := all (16 * (3 + inputs.length) / 2048)
    omega
  · intro partly bn
    omega

theorem file_indexes (laid : Laid inputs h) (other : i ≠ rootino) (bn : Nat) :
    bn < maxfile ∧ ptr (files standard h.seal.image) h.seal.image (slot i bn) ≠ 0 ↔
      bn < ((files standard h.seal.image i).size.toNat + bsize - 1) / bsize := by
  have limit : (table h i).size.toNat ≤ 524 * 2048 := laid.built.limit i
  have full (near : bn < 524) : ptr (table h) (view h) (slot i bn) ≠ 0 ↔ bn * 2048 < (table h i).size.toNat :=
    (laid.built.full i).blocks bn near
  rw [seal_pointers laid (slot_leaf i bn).within,seal_table laid,update_of_ne other]
  show bn < 524 ∧ _ ↔ bn < ((table h i).size.toNat + 2048 - 1) / 2048
  rw [and_congr_right full]
  omega

theorem seal_consistent (laid : Laid inputs h) : Consistent h.seal ↔ (inputs.length + 3) % 128 ≠ 0 := by
  have counted := laid.built.growing.toCounted
  have owned := laid.built.growing.owned
  have metas : nmeta = 40 := by decide
  have last : standard.sb.bmapstart.toNat = 39 := rfl
  have most : standard.sb.size.toNat = fssize := rfl
  have pointers {σ : Place} (within : σ.Within depth) := seal_pointers laid within
  refine ⟨fun consistent => (root_indexes laid).mp (consistent.indexes rootino),fun partly => ?_⟩
  refine ⟨⟨counted.low,counted.high⟩,laid.built.few,fun σ within there => ?_,fun i bn => ?_,?_,fun z small => ?_⟩
  · rw [pointers within] at there ⊢
    have data := owned.data σ within there
    omega
  · by_cases root : i = rootino
    · rw [root]
      exact (root_indexes laid).mpr partly bn
    · exact file_indexes laid root bn
  · intro σ τ within within' there same
    rw [pointers within] at there same
    rw [pointers within'] at same
    exact owned.distinct σ τ within within' there same
  · have bits : used standard h.seal.image z = used standard (view h) z := by
      rw [used,used,seal_behind h _ (Nat.le_refl _)]
    have assigned : (∃ σ : Place, σ.Within depth ∧ ptr (files standard h.seal.image) h.seal.image σ ≠ 0 ∧
        (ptr (files standard h.seal.image) h.seal.image σ).toNat = z) ↔
        ∃ σ : Place, σ.Within depth ∧ ptr (table h) (view h) σ ≠ 0 ∧ (ptr (table h) (view h) σ).toNat = z :=
      exists_congr fun σ => and_congr_right fun within => by rw [pointers within]
    rw [bits,assigned]
    by_cases inside : z < fssize
    · rw [laid.built.exact z inside,last,metas]
      exact or_congr_left (by omega)
    · have high := counted.high
      rw [used_view high,decide_eq_true_eq]
      refine iff_of_false (by omega) ?_
      rintro (low | ⟨σ,within,there,rfl⟩)
      · have small : fssize = 1000 := rfl
        omega
      · exact inside (owned.data σ within there).2

def entry (e : UInt32 × List UInt8) : Option (List UInt8 × UInt16) :=
  some (cname (cstring e.2) dirsiz,UInt16.ofNat e.1.toNat)

theorem getElem?_entries (l : List (UInt32 × List UInt8)) (j : Nat) {x : Nat} (inside : x < 16) :
    (l.flatMap fun e => entryBytes e.1 e.2)[16 * j + x]? = l[j]?.map fun e => dirent e.1 e.2 x := by
  induction l generalizing j with
  | nil => simp
  | cons e l ih =>
    have sixteen := length_entryBytes e.1 e.2
    rw [List.flatMap_cons]
    cases j with
    | zero =>
      rw [List.getElem?_append_left (by omega),entryBytes,List.getElem?_map,List.getElem?_range (by omega)]
      simp
    | succ j =>
      rw [List.getElem?_append_right (by omega),sixteen,show 16 * (j + 1) + x - 16 = 16 * j + x by omega,ih,List.getElem?_cons_succ]

theorem getElem?_text (h : Host) (i : UInt32) (x : Nat) :
    (text h i)[x]? = if x < (table h i).size.toNat then some (content (table h) (view h) i x) else none := by
  split_ifs with inside
  · rw [text,List.getElem?_map,List.getElem?_range inside]
    rfl
  · rw [List.getElem?_eq_none_iff,length_text]
    exact Nat.le_of_not_lt inside

theorem seal_slots (laid : Laid inputs h) {l : List (UInt32 × List UInt8)}
    (written : text h i = l.flatMap fun e => entryBytes e.1 e.2) (live : ∀ e ∈ l, UInt16.ofNat e.1.toNat ≠ 0)
    (longer : l.length ≤ (files standard h.seal.image i).size.toNat / 16)
    (near : (files standard h.seal.image i).size.toNat ≤ maxfile * bsize) :
    slots standard h.seal.image i =
      l.map entry ++ List.replicate ((files standard h.seal.image i).size.toNat / 16 - l.length) none := by
  have size : (table h i).size.toNat = 16 * l.length := by
    rw [← length_text,written,List.length_flatMap]
    simp [length_entryBytes,Nat.mul_comm]
  have contents := seal_content laid i
  have near : (files standard h.seal.image i).size.toNat ≤ 524 * 2048 := near
  refine List.ext_getElem? fun j => ?_
  rw [getElem?_slots]
  by_cases here : j < l.length
  · have entry_eq : record (content (files standard h.seal.image) h.seal.image i) (16 * j) = entry l[j] := by
      rw [entry,← record_new (fun _ => 0) _ (live _ (List.getElem_mem here))]
      refine record_congr fun x inside => ?_
      have byte := getElem?_text h i (16 * j + x)
      rw [written,getElem?_entries l j inside,if_pos (by omega),List.getElem?_eq_getElem here] at byte
      rw [contents,Nat.zero_add]
      exact (Option.some.inj byte).symm
    rw [if_pos (by omega),entry_eq,List.getElem?_append_left (by rwa [List.length_map]),List.getElem?_map,
      List.getElem?_eq_getElem here]
    rfl
  · rw [List.getElem?_append_right (by rw [List.length_map]; omega),List.length_map,List.getElem?_replicate]
    by_cases inside : j < (files standard h.seal.image i).size.toNat / 16
    · have zero : record (content (files standard h.seal.image) h.seal.image i) (16 * j) = none := by
        have first : u16 (content (files standard h.seal.image) h.seal.image i) (16 * j) = 0 := by
          rw [u16_congr _ (fun _ => 0) (16 * j) 0 fun x bound => ?_,u16_zero]
          rw [contents]
          refine laid.built.tail i _ ?_ (by omega)
          show (16 * j + x) / 2048 < 524
          omega
        rw [record,if_pos first]
      rw [if_pos inside,if_pos (by omega),zero]
    · rw [if_neg inside,if_neg (by omega)]

def fileEntries (inputs : List Input) : List (UInt32 × List UInt8) := inputs.zipIdx.map fun f => (fileno f.2,f.1.name)

def rootEntries (inputs : List Input) : List (UInt32 × List UInt8) :=
  [(rootino,dot),(rootino,dotdot),(mntino,mnt)] ++ fileEntries inputs

def mntEntries : List (UInt32 × List UInt8) := [(mntino,dot),(rootino,dotdot)]

theorem length_rootEntries (inputs : List Input) : (rootEntries inputs).length = 3 + inputs.length := by
  rw [rootEntries,List.length_append,fileEntries,List.length_map,List.length_zipIdx]
  rfl

theorem rootText_eq (inputs : List Input) : rootText inputs = (rootEntries inputs).flatMap fun e => entryBytes e.1 e.2 := by
  simp [rootText,rootEntries,fileEntries,List.flatMap_map]

theorem mem_fileEntries (few : 3 + inputs.length ≤ ninodes) {e : UInt32 × List UInt8} (member : e ∈ fileEntries inputs) :
    3 ≤ e.1.toNat ∧ e.1.toNat < ninodes := by
  obtain ⟨⟨f,k⟩,here,rfl⟩ := List.mem_map.mp member
  have inside : k < inputs.length := by simpa using (List.mem_zipIdx here).2.1
  have few : 3 + inputs.length ≤ 200 := few
  show 3 ≤ (fileno k).toNat ∧ (fileno k).toNat < 200
  rw [fileno_toNat (by omega)]
  omega

theorem number_ne_zero {n : UInt32} (positive : 0 < n.toNat) (small : n.toNat < ninodes) : UInt16.ofNat n.toNat ≠ 0 := by
  have small : n.toNat < 200 := small
  intro zero
  have value : (UInt16.ofNat n.toNat).toNat = 0 := by rw [zero]; rfl
  rw [UInt16.toNat_ofNat'] at value
  omega

theorem number_toUInt32 {n : UInt32} (small : n.toNat < ninodes) : (UInt16.ofNat n.toNat).toUInt32 = n := by
  have small : n.toNat < 200 := small
  apply UInt32.toNat_inj.mp
  rw [UInt16.toNat_toUInt32,UInt16.toNat_ofNat']
  omega

theorem root_slots (laid : Laid inputs h) : ∃ m, slots standard h.seal.image rootino =
    (rootEntries inputs).map entry ++ List.replicate m none := by
  have few : 3 + inputs.length ≤ ninodes := by rw [← laid.count]; exact laid.built.few
  have size : (files standard h.seal.image rootino).size.toNat = (16 * (3 + inputs.length) / 2048 + 1) * 2048 := by
    rw [seal_table laid,update_self]
    exact rounded_size laid
  have most : 3 + inputs.length ≤ 200 := few
  refine ⟨_,seal_slots laid (laid.root.trans (rootText_eq inputs)) (fun e member => ?_) ?_ ?_⟩
  · obtain fixed | file := List.mem_append.mp member
    · have each : ∀ e ∈ [(rootino,dot),(rootino,dotdot),(mntino,mnt)], UInt16.ofNat e.1.toNat ≠ 0 := by decide
      exact each e fixed
    · have range := mem_fileEntries few file
      exact number_ne_zero (by omega) range.2
  · rw [length_rootEntries]
    omega
  · show _ ≤ 524 * 2048
    omega

theorem mnt_slots (laid : Laid inputs h) : slots standard h.seal.image mntino = mntEntries.map entry := by
  have size : (files standard h.seal.image mntino).size.toNat = 32 := by
    rw [seal_table laid,update_of_ne (by decide),← length_text,laid.mnt,mntText,List.length_append,length_entryBytes,length_entryBytes]
  have written : text h mntino = mntEntries.flatMap fun e => entryBytes e.1 e.2 := by
    rw [laid.mnt]
    simp [mntText,mntEntries]
  have slots := seal_slots laid written (by decide) (by rw [size]; decide) (by rw [size]; decide)
  rw [slots,size]
  exact List.append_nil _

theorem seal_dir (laid : Laid inputs h) {d : UInt32} : (files standard h.seal.image d).type = tDir ↔ d = rootino ∨ d = mntino := by
  have count := laid.count
  have same : (files standard h.seal.image d).type = (table h d).type := by
    rw [seal_table laid]
    by_cases root : d = rootino
    · rw [root,update_self]
      rfl
    · rw [update_of_ne root]
  have one : d = rootino ↔ d.toNat = 1 := UInt32.toNat_inj.symm
  have two : d = mntino ↔ d.toNat = 2 := UInt32.toNat_inj.symm
  rw [same,one,two]
  by_cases made : 0 < d.toNat ∧ d.toNat < h.freeinode.toNat
  · rw [(laid.kinds d made.1 made.2).1]
    by_cases low : d.toNat < 3
    · rw [if_pos low]
      exact iff_of_true rfl (by omega)
    · rw [if_neg low]
      exact iff_of_false (by decide) (by omega)
  · have unused : table h d = blankInode d 0 := if_neg fun here => made ((laid.built.inodes d).mp here)
    have plain : (blankInode d 0).type ≠ tDir := fun dir => absurd dir (by show (0 : UInt16) ≠ tDir; decide)
    rw [unused]
    exact iff_of_false plain (by omega)

theorem mentions_eq (laid : Laid inputs h) (d : UInt32) :
    mentions h.seal.image d = (rootEntries inputs).countP (fun e => names d (entry e)) + mntEntries.countP (fun e => names d (entry e)) := by
  have few : 3 + inputs.length ≤ ninodes := by rw [← laid.count]; exact laid.built.few
  obtain ⟨m,root⟩ := root_slots laid
  rw [mentions,Finset.sum_eq_add 1 2 (by decide)]
  · have first : UInt32.ofNat 1 = rootino := rfl
    have second : UInt32.ofNat 2 = mntino := rfl
    rw [first,second,if_pos ((seal_dir laid).mpr (.inl rfl)),if_pos ((seal_dir laid).mpr (.inr rfl)),root,mnt_slots laid,
      List.countP_append,List.countP_replicate,List.countP_map,List.countP_map]
    rfl
  · intro j inside apart
    have small : j < 200 := Finset.mem_range.mp inside
    have value : (UInt32.ofNat j).toNat = j := by
      rw [UInt32.toNat_ofNat']
      omega
    refine if_neg fun dir => ?_
    obtain root | mnt := (seal_dir laid).mp dir
    · exact apart.1 (by rw [← value,root]; rfl)
    · exact apart.2 (by rw [← value,mnt]; rfl)
  · intro outside
    exact absurd (Finset.mem_range.mpr (by decide)) outside
  · intro outside
    exact absurd (Finset.mem_range.mpr (by decide)) outside

theorem files_unnamed (few : 3 + inputs.length ≤ ninodes) {d : UInt32} (low : d.toNat < 3) :
    (fileEntries inputs).countP (fun e => names d (entry e)) = 0 := by
  refine List.countP_eq_zero.mpr fun e member named => ?_
  have range := mem_fileEntries few member
  have same : (UInt16.ofNat e.1.toNat).toUInt32 = d := (of_decide_eq_true named).2
  rw [number_toUInt32 range.2] at same
  rw [same] at range
  omega

theorem root_links (laid : Laid inputs h) :
    (files standard h.seal.image rootino).nlink = 1 ∧ mentions h.seal.image rootino = 2 := by
  have count := laid.count
  have few : 3 + inputs.length ≤ ninodes := by rw [← count]; exact laid.built.few
  refine ⟨?_,?_⟩
  · rw [seal_table laid,update_self]
    exact (laid.kinds rootino (by decide) (by show 1 < _; omega)).2
  · rw [mentions_eq laid,rootEntries,List.countP_append,files_unnamed few (by decide)]
    decide

theorem miscounted (laid : Laid inputs h) : ¬WellFormed h.seal := by
  obtain ⟨link,named⟩ := root_links laid
  intro formed
  have counts := formed.links rootino ((seal_dir laid).mpr (.inl rfl))
  rw [Counts,link,named] at counts
  exact absurd counts (by decide)

theorem mnt_links (laid : Laid inputs h) : Counts h.seal mntino := by
  have count := laid.count
  have few : 3 + inputs.length ≤ ninodes := by rw [← count]; exact laid.built.few
  rw [Counts,mentions_eq laid,rootEntries,List.countP_append,files_unnamed few (by decide),seal_table laid,
    update_of_ne (by decide),(laid.kinds mntino (by decide) (by show 2 < _; omega)).2]
  decide

end

section Counter

variable {h : Host} {α β : Type}

def Makes (x : H α) (n : Nat) : Prop :=
  ∀ h : Host, h.length = fssize → Meets x h (fun _ h' => h'.length = fssize ∧ h'.freeinode.toNat = h.freeinode.toNat + n) fun _ => True

theorem Makes.pure (a : α) : Makes (Pure.pure a) 0 := fun _ length => .pure_intro ⟨length,rfl⟩

theorem Makes.fault (e : Exit) (n : Nat) : Makes (fault e : H α) n := fun _ _ => .of_error rfl trivial

theorem Makes.bind {x : H α} {f : α → H β} {n m k : Nat} (first : Makes x n) (sum : n + m = k) (next : ∀ a, Makes (f a) m) :
    Makes (x >>= f) k := by
  intro h length
  refine (first h length).bind ?_
  rintro a h₁ ⟨length₁,made₁⟩
  refine (next a h₁ length₁).mono ?_ fun _ => id
  rintro _ h₂ ⟨length₂,made₂⟩
  exact ⟨length₂,by omega⟩

theorem Makes.then {x : H α} {f : α → H β} {n : Nat} (first : Makes x 0) (next : ∀ a, Makes (f a) n) : Makes (x >>= f) n :=
  first.bind (Nat.zero_add n) next

theorem Makes.ite {c : Prop} [Decidable c] {x y : H α} {n : Nat} (left : Makes x n) (right : Makes y n) :
    Makes (if c then x else y) n := by
  split_ifs
  · exact left
  · exact right

theorem Makes.rsect {b : Blockno} {f : Block → H β} {n : Nat} (next : b.toNat < fssize → ∀ buf, Makes (f buf) n) :
    Makes (Mkfs.rsect b >>= f) n := by
  intro h length
  by_cases inside : b.toNat < h.length
  · exact .step (if_pos inside) (next (by omega) _ h length)
  · exact .stop (if_neg inside) trivial

theorem Makes.wsect {b : Blockno} (inside : b.toNat < fssize) (buf : Block) : Makes (wsect b buf) 0 := by
  intro h length
  refine .of_ok rfl ⟨?_,rfl⟩
  show max h.length (b.toNat + 1) = fssize
  omega

theorem makes_winode (inum : UInt32) (ip : Inode) : Makes (winode inum ip) 0 := .rsect fun inside _ => .wsect inside _

theorem makes_rinode (inum : UInt32) : Makes (rinode inum) 0 := .rsect fun _ _ => .pure _

theorem makes_nextBlock : Makes nextBlock 0 := fun _ length => .of_ok rfl ⟨length,rfl⟩

theorem makes_appendBlock (din : Inode) (fbn : Nat) : Makes (appendBlock din fbn) 0 := by
  rw [appendBlock]
  split
  · dsimp only
    exact .ite (makes_nextBlock.then fun _ => .pure _) (.pure _)
  · refine .then (.ite (makes_nextBlock.then fun _ => .pure _) (.pure _)) fun _ => .rsect fun inside _ => ?_
    exact .ite (makes_nextBlock.then fun _ => .then (.wsect inside _) fun _ => .pure _) (.pure _)

theorem makes_appendLoop (fuel : Nat) (din : Inode) (off : Nat) (p : Nat → UInt8) (n : Nat) :
    Makes (appendLoop fuel din off p n) 0 := by
  induction fuel generalizing din off p n with
  | zero => exact .ite (.fault _ _) (.pure _)
  | succ fuel ih =>
    refine .ite (.ite ((makes_appendBlock _ _).then ?_) (.fault _ _)) (.pure _)
    rintro ⟨x,din'⟩
    exact .rsect fun inside _ => .then (.wsect inside _) fun _ => ih _ _ _ _

theorem makes_iappend (inum : UInt32) (p : Nat → UInt8) (n : Nat) : Makes (iappend inum p n) 0 := by
  refine (makes_rinode inum).then fun din => (makes_appendLoop _ _ _ _ _).then ?_
  rintro ⟨din',off⟩
  exact makes_winode _ _

theorem makes_ialloc (type : UInt16) : Makes (ialloc type) 1 := by
  intro h length
  refine .step (t := h.count) rfl ?_
  by_cases inside : (iblock h.freeinode).toNat < h.length
  · have small : h.freeinode.toNat < 2^32 - 1 := by
      have low : (iblock h.freeinode).toNat < 1000 := by rwa [length] at inside
      have start : sb.inodestart.toNat = 32 := by decide
      have thirtieth : h.freeinode.toNat / ipb = h.freeinode.toNat / 32 := rfl
      have word := h.freeinode.toNat_lt
      rw [iblock,UInt32.toNat_add,UInt32.toNat_ofNat',start,thirtieth] at low
      omega
    have next : h.count.freeinode.toNat = h.freeinode.toNat + 1 := by
      show (h.freeinode + 1).toNat = _
      rw [UInt32.toNat_add]
      have one : (1 : UInt32).toNat = 1 := rfl
      omega
    refine (makes_winode h.freeinode _ h.count length).bind ?_
    rintro _ h₁ ⟨length₁,made₁⟩
    exact .pure_intro ⟨length₁,by omega⟩
  · have outside : rsect (iblock h.freeinode) h.count = .error .one := if_neg inside
    exact .stop (bind_error outside _) trivial

theorem Makes.forM {f : α → H PUnit} {n : Nat} (each : ∀ a, Makes (f a) n) (l : List α) : Makes (l.forM f) (n * l.length) := by
  induction l with
  | nil => exact .pure _
  | cons a l ih =>
    refine (each a).bind ?_ fun _ => ih
    rw [List.length_cons,Nat.mul_succ,Nat.add_comm]

theorem makes_addFile (f : Input) : Makes (addFile f) 1 := by
  refine .ite (.fault _ _) (.ite (.fault _ _) ?_)
  refine (makes_ialloc tFile).bind (m := 0) rfl fun inum => (makes_iappend _ _ _).then fun _ => ?_
  have all := Makes.forM (fun c : Chunk => makes_iappend inum (cstring c.bytes) c.bytes.length) f.chunks
  rwa [Nat.zero_mul] at all

theorem makes_makeDirs : Makes makeDirs 2 := by
  refine (makes_ialloc tDir).bind (m := 1) rfl fun root => .ite (.fault _ _) ?_
  refine (makes_iappend _ _ _).then fun _ => (makes_iappend _ _ _).then fun _ => (makes_ialloc tDir).bind (m := 0) rfl fun dir => ?_
  exact (makes_iappend _ _ _).then fun _ => (makes_iappend _ _ _).then fun _ => makes_iappend _ _ _

theorem makes_populate (inputs : List Input) :
    Makes (do makeDirs; inputs.forM addFile; fixRoot; let used ← freeblock; balloc used.toNat) (2 + inputs.length) := by
  have files := Makes.forM makes_addFile inputs
  rw [Nat.one_mul] at files
  refine makes_makeDirs.bind rfl fun _ => files.bind (Nat.add_zero _) fun _ => ?_
  have root : Makes fixRoot 0 := (makes_rinode _).then fun _ => makes_winode _ _
  have block : Makes freeblock 0 := fun _ length => .of_ok rfl ⟨length,rfl⟩
  exact root.then fun _ => block.then fun _ => .ite (.wsect (by decide) _) (.fault _ _)

theorem freeinode_main {inputs : List Input} (ran : main inputs start = .ok ((),h)) : h.freeinode.toNat = 3 + inputs.length := by
  have same : main inputs start = _ := main_start
  have one : blankHost.freeinode.toNat = 1 := rfl
  have length : blankHost.length = fssize := rfl
  rw [ran] at same
  generalize blankHost = blank at same one length
  have made := (makes_populate inputs blank length).result same.symm
  omega

theorem laid_of_main {inputs : List Input} (few : 3 + inputs.length ≤ ninodes) (ran : main inputs start = .ok ((),h)) :
    ∃ g, Laid inputs g ∧ h = g.seal := by
  obtain ⟨g,laid,returns⟩ | ⟨e,-,stops⟩ := main_cases inputs (fun _ => True) few (fun _ => trivial) (fun _ => trivial)
    (fun _ => trivial) fun _ => trivial
  · rw [ran] at returns
    cases returns
    exact ⟨g,laid,rfl⟩
  · rw [ran] at stops
    cases stops

/-- A finished image is well formed, but for the link count of the root, if the inodes are enough and the records of
the root do not end with a block. In such an image the root has one link less than there are entries that name it. -/
theorem image_well_formed_iff {inputs : List Input} (ran : main inputs start = .ok ((),h)) :
    ((Consistent h ∧ ∀ d, (files standard h.image d).type = tDir → d ≠ rootino → Counts h d) ↔
      inputs.length + 2 < ninodes ∧ (inputs.length + 3) % 128 ≠ 0) ∧
    ¬WellFormed h ∧
    (inputs.length + 2 < ninodes → mentions h.image rootino = (files standard h.image rootino).nlink.toNat + 1) := by
  have count := freeinode_main ran
  by_cases few : inputs.length + 2 < ninodes
  · obtain ⟨g,laid,rfl⟩ := laid_of_main (by omega) ran
    obtain ⟨link,named⟩ := root_links laid
    have others (d : UInt32) (dir : (files standard g.seal.image d).type = tDir) (apart : d ≠ rootino) : Counts g.seal d := by
      obtain root | rfl := (seal_dir laid).mp dir
      · exact absurd root apart
      · exact mnt_links laid
    refine ⟨⟨fun both => ⟨few,(seal_consistent laid).mp both.1⟩,fun both => ⟨(seal_consistent laid).mpr both.2,others⟩⟩,?_,fun _ => ?_⟩
    · exact miscounted laid
    · rw [named,link]
      rfl
  · have many : ¬Consistent h := fun consistent => few (by have := consistent.inodes; omega)
    exact ⟨iff_of_false (fun both => many both.1) (fun both => few both.1),fun formed => many formed.toConsistent,fun less => absurd less few⟩

def single (arg : List UInt8) (proper : 0 ∉ arg) : Input := ⟨arg,proper,true,[⟨[65],by decide,by decide⟩]⟩

theorem main_single (arg : List UInt8) (proper : 0 ∉ arg) (plain : 47 ∉ arg) :
    ∃ g, Laid [single arg proper] g ∧ main [single arg proper] start = .ok ((),g.seal) := by
  have size : total [single arg proper] = nmeta + blocksOf 64 + blocksOf 32 + (blocksOf 1 + 0) := rfl
  obtain returns | ⟨e,stops,-⟩ := main_cases [single arg proper] (fun _ => False) (by show 3 + 1 ≤ 200; decide)
    (by rintro ⟨f,member,slash⟩; rw [List.mem_singleton.mp member] at slash; exact plain slash)
    (by rintro ⟨f,member,closed⟩; rw [List.mem_singleton.mp member] at closed; cases closed)
    (by
      rintro ⟨f,member,long⟩
      rw [List.mem_singleton.mp member] at long
      exact absurd long (by show ¬524 * 2048 < 1; decide))
    (by rw [size]; decide)
  · exact returns
  · exact absurd stops id

def lone : List Input := [single [97] (by decide)]

theorem image_well_formed_lone : ∃ h, main lone start = .ok ((),h) ∧ Consistent h ∧
    mentions h.image rootino = (files standard h.image rootino).nlink.toNat + 1 := by
  obtain ⟨g,-,ran⟩ := main_single [97] (by decide) (by decide)
  obtain ⟨formed,-,miscount⟩ := image_well_formed_iff ran
  exact ⟨g.seal,ran,(formed.mpr (by decide)).1,miscount (by decide)⟩

theorem main_bare : ∃ g, Laid [] g ∧ main [] start = .ok ((),g.seal) := by
  obtain returns | ⟨e,stops,-⟩ := main_cases [] (fun _ => False) (by decide) (by simp) (by simp) (by simp) (by decide)
  · exact returns
  · exact absurd stops id

/-- An image without files is finished, and its root has two entries that name it. -/
theorem bare_image_miscounts_root : ∃ h, main [] start = .ok ((),h) ∧ (files standard h.image rootino).nlink = 1 ∧
    mentions h.image rootino = 2 ∧ ¬WellFormed h := by
  obtain ⟨g,laid,ran⟩ := main_bare
  obtain ⟨link,named⟩ := root_links laid
  exact ⟨g.seal,ran,link,named,miscounted laid⟩

end Counter

end Xv6Ext2.Mkfs
