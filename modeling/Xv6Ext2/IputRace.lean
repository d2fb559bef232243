import Xv6Ext2.Icache
import Xv6Ext2.Lib.Schedule
import Mathlib

/-! `iput` and `ext2_iput` of one inode by many processes. A step of a process ends where it acquires or
releases `ip->lock` or `icache.lock`; in the free branch every change to the disk is a step of its own. -/
namespace Xv6Ext2.Icache
open Lib Function

/-- The inode on disk. On ext2 `type` is what its mode stands for and `used` its bit in the inode bitmap. -/
structure OnDisk where
  type : UInt16
  nlink : UInt16
  size : UInt32
  blocks : Fin 15 → UInt32
  used : Bool

/-- The cache entry of an inode that `ι` is the processes of, the slot it has, and the inode on disk. -/
structure Shared (ι : Type) where
  ref : Nat
  /-- `lock.pid` while `lock.locked` -/
  holder : Option ι
  valid : Bool
  copy : Copy
  fileType : Option FsType
  /-- whether `addrs` is not null -/
  addrs : Bool
  busy : Bool
  blocks : Fin 15 → UInt32
  disk : OnDisk
  truncations : Nat
  frees : Nat

/-- `iupdate` or `ext2_iupdate` of the entry. -/
def Shared.saved {ι : Type} (fs : FsType) (s : Shared ι) : Shared ι :=
  {s with disk := {s.disk with
    type := match fs with
      | .inbuiltfs => s.copy.type
      | .ext2fs => if s.copy.type = 1 ∨ s.copy.type = 2 then s.copy.type else s.disk.type
    nlink := s.copy.nlink
    size := s.copy.size
    blocks := s.blocks}}

/-- Where a process is in `iput`. -/
inductive PutPc where
  | start
  | locked
  | sampled (r : Nat)
  | truncating
  | marking
  | updating
  | clearing
  | leaving
  | dropping
  | done
  deriving DecidableEq

section

variable {ι : Type}

/-- One step of `iput` or `ext2_iput` by process `i`. -/
def putStep (fs : FsType) (i : ι) (s : Shared ι) : PutPc → Option (Shared ι × PutPc)
  | .start => match s.holder with
    | none => some ({s with holder := some i},.locked)
    | some _ => none
  | .locked =>
    if s.valid = true ∧ s.copy.nlink = 0 then some (s,.sampled s.ref) else some (s,.leaving)
  | .sampled r =>
    if r = 1 then
      match fs with
      | .inbuiltfs => some (s,.truncating)
      | .ext2fs => some (s,.marking)
    else some (s,.leaving)
  -- `itrunc` of fs.c ends with an `iupdate`, `ext2_itrunc` of a file without triple-indirect blocks does not.
  | .truncating => match fs with
    | .inbuiltfs =>
      some ({s with blocks := fun _ => 0, copy := {s.copy with size := 0}, truncations := s.truncations + 1}.saved fs,.marking)
    | .ext2fs => some ({s with blocks := fun _ => 0, truncations := s.truncations + 1},.updating)
  | .marking => match fs with
    | .inbuiltfs => some ({s with copy := {s.copy with type := 0}, frees := s.frees + 1}.saved fs,.clearing)
    | .ext2fs =>
      if s.disk.used then some ({s with disk := {s.disk with used := false}, frees := s.frees + 1},.truncating)
      else none
  | .updating => some ({s with copy := {s.copy with type := 0, size := 0}}.saved fs,.clearing)
  | .clearing => match fs with
    | .inbuiltfs => some ({s with valid := false, fileType := none, addrs := false},.leaving)
    | .ext2fs => some ({s with valid := false, fileType := none},.leaving)
  | .leaving => some ({s with holder := none},.dropping)
  | .dropping =>
    if s.ref - 1 = 0 then
      match fs with
      | .inbuiltfs => some ({s with ref := 0, busy := false, addrs := false},.done)
      | .ext2fs => some ({s with ref := 0, busy := false, fileType := none},.done)
    else some ({s with ref := s.ref - 1},.done)
  | .done => none

structure Puts (ι : Type) where
  shared : Shared ι
  pc : ι → PutPc

variable [DecidableEq ι]

def Puts.step (fs : FsType) (c : Puts ι) (i : ι) : Option (Puts ι) :=
  (putStep fs i c.shared (c.pc i)).map fun next => ⟨next.1,update c.pc i next.2⟩

/-- The inode has no links, is loaded and allocated, and each process has one reference to it. -/
structure Puts.Initial [Fintype ι] (c : Puts ι) : Prop where
  ref : c.shared.ref = Fintype.card ι
  unlocked : c.shared.holder = none
  valid : c.shared.valid = true
  unlinked : c.shared.copy.nlink = 0
  used : c.shared.disk.used = true
  untouched : c.shared.truncations = 0 ∧ c.shared.frees = 0
  start : ∀ i, c.pc i = .start

/-- The process that reads `ref` last reads it when no other process is between `releasesleep` and `ref--`. -/
def Puts.Timely (c : Puts ι) (i : ι) : Prop :=
  c.pc i = .locked → (∀ j, j ≠ i → c.pc j ≠ .start ∧ c.pc j ≠ .locked) → ∀ j, c.pc j ≠ .dropping

end

namespace PutPc

/-- The process holds `ip->lock`. -/
def Inside : PutPc → Prop
  | .start | .dropping | .done => False
  | _ => True

/-- The process is in the free branch. -/
def Freeing : PutPc → Prop
  | .truncating | .marking | .updating | .clearing => True
  | _ => False

/-- The process has not read `ref` yet, or has found that the reference is the last one. -/
def Pending : PutPc → Prop
  | .start | .locked => True
  | .sampled r => r = 1
  | pc => pc.Freeing

def counts (fs : FsType) : PutPc → Nat × Nat
  | .truncating => match fs with
    | .inbuiltfs => (0,0)
    | .ext2fs => (0,1)
  | .marking => match fs with
    | .inbuiltfs => (1,0)
    | .ext2fs => (0,0)
  | .updating | .clearing => (1,1)
  | _ => (0,0)

end PutPc

def Puts.holders {ι : Type} [Fintype ι] (pc : ι → PutPc) : Finset ι := Finset.univ.filter (pc · ≠ .done)

structure Puts.Good {ι : Type} [Fintype ι] (fs : FsType) (s : Shared ι) (pc : ι → PutPc) : Prop where
  lock : ∀ i, (pc i).Inside → s.holder = some i
  ref : s.ref = (holders pc).card
  unlinked : s.copy.nlink = 0
  last : ∀ i, (pc i).Freeing ∨ pc i = .sampled 1 → s.valid = true ∧ ∀ j, j ≠ i → pc j = .done
  spent : s.valid = false → ∀ i, ¬(pc i).Pending
  branch : ∀ i, (pc i).Freeing → (s.truncations,s.frees) = (pc i).counts fs
  outside : (∀ i, ¬(pc i).Freeing) →
    (s.truncations,s.frees) = if s.valid then (0,0) else (1,1)

namespace Puts

variable {ι : Type} [Fintype ι] {fs : FsType} {s : Shared ι} {pc : ι → PutPc} {i : ι}

theorem mem_holders {j : ι} : j ∈ holders pc ↔ pc j ≠ .done := by
  rw [holders,Finset.mem_filter]
  exact and_iff_right (Finset.mem_univ j)

theorem Initial.good {c : Puts ι} (initial : c.Initial) : Good fs c.shared c.pc where
  lock i inside := by
    rw [initial.start] at inside
    exact inside.elim
  ref := by
    rw [initial.ref,holders,Finset.filter_true_of_mem,Finset.card_univ]
    intro j _
    rw [initial.start]
    decide
  unlinked := initial.unlinked
  last i freeing := by
    rw [initial.start] at freeing
    exact freeing.elim False.elim (fun same => by cases same)
  spent invalid := by
    rw [initial.valid] at invalid
    cases invalid
  branch i freeing := by
    rw [initial.start] at freeing
    exact freeing.elim
  outside _ := by rw [initial.valid,initial.untouched.1,initial.untouched.2]; rfl

theorem Good.others (good : Good fs s pc) (inside : (pc i).Inside) {j : ι} (other : j ≠ i) : ¬(pc j).Inside := by
  intro inside'
  have same := (good.lock i inside).symm.trans (good.lock j inside')
  exact other (Option.some.inj same).symm

theorem freeing_inside {p : PutPc} (freeing : p.Freeing) : p.Inside := by
  cases p <;> trivial

theorem Good.idle (good : Good fs s pc) (inside : (pc i).Inside) (elsewhere : ¬(pc i).Freeing) :
    (s.truncations,s.frees) = if s.valid then (0,0) else (1,1) := by
  refine good.outside (fun j freeing => ?_)
  by_cases here : j = i
  · exact elsewhere (here ▸ freeing)
  · exact good.others inside here (freeing_inside freeing)

private theorem last_reference (good : Good fs s pc) (there : pc i ≠ .done) (one : s.ref = 1) (j : ι) (other : j ≠ i) :
    pc j = .done := by
  by_contra unfinished
  have pair := Finset.one_lt_card.mpr ⟨j,mem_holders.mpr unfinished,i,mem_holders.mpr there,other⟩
  rw [← good.ref,one] at pair
  exact Nat.lt_irrefl 1 pair

variable [DecidableEq ι]

theorem holders_moved {p : PutPc} (before : pc i ≠ .done) (after : p ≠ .done) :
    holders (update pc i p) = holders pc := by
  ext j
  rw [mem_holders,mem_holders]
  by_cases here : j = i
  · rw [here,update_self]
    exact iff_of_true after before
  · rw [update_of_ne here]

theorem holders_done (pc : ι → PutPc) : holders (update pc i .done) = (holders pc).erase i := by
  ext j
  rw [Finset.mem_erase,mem_holders,mem_holders]
  by_cases here : j = i
  · rw [here,update_self]
    simp
  · rw [update_of_ne here]
    simp [here]

private theorem good_enter (good : Good fs s pc) (start : pc i = .start) (free : s.holder = none) :
    Good fs {s with holder := some i} (update pc i .locked) := by
  have valid : s.valid = true := by
    by_contra invalid
    exact good.spent (Bool.not_eq_true _ ▸ invalid) i (by rw [start]; trivial)
  have nobody (j : ι) : ¬(pc j).Inside := by
    intro inside
    have held := good.lock j inside
    rw [free] at held
    cases held
  have place (j : ι) : update pc i .locked j = .locked ∨ update pc i .locked j = pc j := by
    by_cases here : j = i
    · exact .inl (by rw [here,update_self])
    · exact .inr (update_of_ne here _ _)
  have idle (j : ι) : ¬(update pc i .locked j).Freeing := by
    rcases place j with here | same
    · rw [here]
      exact id
    · rw [same]
      exact fun freeing => nobody j (freeing_inside freeing)
  refine ⟨?_,?_,good.unlinked,?_,?_,?_,?_⟩
  · intro j inside
    by_cases here : j = i
    · rw [here]
    · rw [update_of_ne here] at inside
      exact absurd inside (nobody j)
  · rw [holders_moved (by rw [start]; decide) (by decide)]
    exact good.ref
  · rintro j (freeing | sampled)
    · exact absurd freeing (idle j)
    · rcases place j with here | same
      · rw [here] at sampled
        cases sampled
      · rw [same] at sampled
        exact absurd (by rw [sampled]; trivial) (nobody j)
  · intro invalid
    rw [valid] at invalid
    cases invalid
  · exact fun j freeing => absurd freeing (idle j)
  · exact fun _ => good.outside (fun j freeing => nobody j (freeing_inside freeing))

private theorem good_within (good : Good fs s pc) (inside : (pc i).Inside) {s' : Shared ι} {p : PutPc} (stays : p.Inside)
    (holder : s'.holder = s.holder) (ref : s'.ref = s.ref) (unlinked : s'.copy.nlink = s.copy.nlink)
    (last : p.Freeing ∨ p = .sampled 1 → s'.valid = true ∧ ∀ j, j ≠ i → pc j = .done)
    (spent : s'.valid = false → ¬p.Pending ∧ ∀ j, j ≠ i → ¬(pc j).Pending)
    (branch : p.Freeing → (s'.truncations,s'.frees) = p.counts fs)
    (outside : ¬p.Freeing → (s'.truncations,s'.frees) = if s'.valid then (0,0) else (1,1)) :
    Good fs s' (update pc i p) := by
  have quiet (j : ι) (other : j ≠ i) : ¬(pc j).Freeing :=
    fun freeing => good.others inside other (freeing_inside freeing)
  refine ⟨?_,?_,unlinked.trans good.unlinked,?_,?_,?_,?_⟩
  · intro j there
    by_cases here : j = i
    · rw [here,holder]
      exact good.lock i inside
    · rw [update_of_ne here] at there
      exact absurd there (good.others inside here)
  · have before : pc i ≠ .done := fun done => by rw [done] at inside; exact inside
    have after : p ≠ .done := fun done => by rw [done] at stays; exact stays
    rw [holders_moved before after]
    exact ref.trans good.ref
  · intro j there
    by_cases here : j = i
    · subst here
      rw [update_self] at there
      refine ⟨(last there).1,fun k other => ?_⟩
      rw [update_of_ne other]
      exact (last there).2 k other
    · rw [update_of_ne here] at there
      rcases there with freeing | sampled
      · exact absurd freeing (quiet j here)
      · exact absurd (by rw [sampled]; trivial) (good.others inside here)
  · intro invalid j
    by_cases here : j = i
    · rw [here,update_self]
      exact (spent invalid).1
    · rw [update_of_ne here]
      exact (spent invalid).2 j here
  · intro j freeing
    by_cases here : j = i
    · rw [here,update_self] at freeing ⊢
      exact branch freeing
    · rw [update_of_ne here] at freeing
      exact absurd freeing (quiet j here)
  · intro none
    have idle := none i
    rw [update_self] at idle
    exact outside idle

private theorem good_leave (good : Good fs s pc) (leaving : pc i = .leaving) :
    Good fs {s with holder := none} (update pc i .dropping) := by
  have inside : (pc i).Inside := by rw [leaving]; trivial
  have nobody (j : ι) : ¬(update pc i .dropping j).Inside := by
    by_cases here : j = i
    · rw [here,update_self]
      exact id
    · rw [update_of_ne here]
      exact good.others inside here
  refine ⟨fun j there => absurd there (nobody j),?_,good.unlinked,?_,?_,?_,?_⟩
  · rw [holders_moved (by rw [leaving]; decide) (by decide)]
    exact good.ref
  · rintro j (freeing | sampled)
    · exact absurd (freeing_inside freeing) (nobody j)
    · exact absurd (by rw [sampled]; trivial) (nobody j)
  · intro invalid j
    by_cases here : j = i
    · rw [here,update_self]
      exact id
    · rw [update_of_ne here]
      exact good.spent invalid j
  · exact fun j freeing => absurd (freeing_inside freeing) (nobody j)
  · intro _
    refine good.outside (fun j freeing => ?_)
    by_cases here : j = i
    · rw [here,leaving] at freeing
      exact freeing
    · exact good.others inside here (freeing_inside freeing)

private theorem good_drop (good : Good fs s pc) (dropping : pc i = .dropping) {s' : Shared ι}
    (holder : s'.holder = s.holder) (ref : s'.ref = s.ref - 1) (unlinked : s'.copy.nlink = s.copy.nlink)
    (valid : s'.valid = s.valid) (counts : (s'.truncations,s'.frees) = (s.truncations,s.frees)) :
    Good fs s' (update pc i .done) := by
  have member : i ∈ holders pc := mem_holders.mpr (by rw [dropping]; decide)
  -- What the other processes do is as before, and `i` is nowhere that matters.
  have place {P : PutPc → Prop} (no : ¬P .done) {j : ι} (there : P (update pc i .done j)) :
      j ≠ i ∧ P (pc j) := by
    have other : j ≠ i := by
      rintro rfl
      rw [update_self] at there
      exact no there
    rw [update_of_ne other] at there
    exact ⟨other,there⟩
  refine ⟨?_,?_,unlinked.trans good.unlinked,?_,?_,?_,?_⟩
  · intro j there
    rw [holder]
    exact good.lock j (place (P := PutPc.Inside) id there).2
  · rw [ref,good.ref,holders_done,Finset.card_erase_of_mem member]
  · intro j there
    obtain ⟨other,there⟩ := place (P := fun p => p.Freeing ∨ p = .sampled 1) (by simp [PutPc.Freeing]) there
    have dropped := (good.last j there).2 i other.symm
    rw [dropping] at dropped
    cases dropped
  · intro invalid j pending
    rw [valid] at invalid
    exact good.spent invalid j (place (P := PutPc.Pending) id pending).2
  · intro j freeing
    obtain ⟨other,freeing⟩ := place (P := PutPc.Freeing) id freeing
    rw [update_of_ne other,counts]
    exact good.branch j freeing
  · intro none
    rw [counts,valid]
    refine good.outside (fun j freeing => none j ?_)
    have other : j ≠ i := by
      rintro rfl
      rw [dropping] at freeing
      exact freeing
    rw [update_of_ne other]
    exact freeing

private theorem good_branch (good : Good fs s pc) {q : PutPc} (here : pc i = q) (before : q.Freeing) {s' : Shared ι}
    {p : PutPc} (after : p.Freeing) (holder : s'.holder = s.holder) (ref : s'.ref = s.ref)
    (unlinked : s'.copy.nlink = s.copy.nlink) (valid : s'.valid = s.valid) (more more' : Nat)
    (truncations : s'.truncations = s.truncations + more) (frees : s'.frees = s.frees + more')
    (counts : p.counts fs = ((q.counts fs).1 + more,(q.counts fs).2 + more')) :
    Good fs s' (update pc i p) := by
  subst here
  have last := good.last i (.inl before)
  have same : s'.valid = true := valid.trans last.1
  refine good_within good (freeing_inside before) (freeing_inside after) holder ref unlinked (fun _ => ⟨same,last.2⟩) ?_
    (fun _ => ?_) (fun outside => absurd after outside)
  · intro invalid
    rw [same] at invalid
    cases invalid
  · rw [counts,truncations,frees,← good.branch i before]

theorem Good.step (good : Good fs s pc) {s' : Shared ι} {p : PutPc} (ran : putStep fs i s (pc i) = some (s',p)) :
    Good fs s' (update pc i p) := by
  cases here : pc i with
  | start =>
    rw [here,putStep] at ran
    cases free : s.holder with
    | none =>
      rw [free] at ran
      cases ran
      exact good_enter good here free
    | some j =>
      rw [free] at ran
      cases ran
  | locked =>
    have inside : (pc i).Inside := by rw [here]; trivial
    rw [here,putStep] at ran
    have valid : s.valid = true := by
      by_contra invalid
      exact good.spent (Bool.not_eq_true _ ▸ invalid) i (by rw [here]; trivial)
    rw [if_pos ⟨valid,good.unlinked⟩] at ran
    cases ran
    have idle := good.idle inside (by rw [here]; exact id)
    refine good_within good inside trivial rfl rfl rfl ?_ ?_ (fun freeing => freeing.elim) (fun _ => idle)
    · rintro (freeing | one)
      · exact freeing.elim
      · exact ⟨valid,last_reference good (by rw [here]; decide) (PutPc.sampled.inj one)⟩
    · intro invalid
      rw [valid] at invalid
      cases invalid
  | sampled r =>
    have inside : (pc i).Inside := by rw [here]; trivial
    have idle := good.idle inside (by rw [here]; exact id)
    rw [here] at ran
    simp only [putStep] at ran
    split_ifs at ran with one
    · subst one
      have last := good.last i (.inr here)
      rw [last.1] at idle
      cases fs <;> cases ran
      · exact good_within good inside trivial rfl rfl rfl (fun _ => last) (fun invalid => absurd last.1 (by rw [invalid]; decide)) (fun _ => idle) (absurd trivial)
      · exact good_within good inside trivial rfl rfl rfl (fun _ => last) (fun invalid => absurd last.1 (by rw [invalid]; decide)) (fun _ => idle) (absurd trivial)
    · cases ran
      refine good_within good inside trivial rfl rfl rfl ?_ (fun invalid => ⟨id,fun j _ => good.spent invalid j⟩)
        (fun freeing => freeing.elim) (fun _ => idle)
      rintro (freeing | sampled)
      · exact freeing.elim
      · cases sampled
  | truncating =>
    cases fs <;> rw [here] at ran <;> cases ran
    · exact good_branch good here trivial trivial rfl rfl rfl rfl 1 0 rfl rfl rfl
    · exact good_branch good here trivial trivial rfl rfl rfl rfl 1 0 rfl rfl rfl
  | marking =>
    cases fs <;> rw [here] at ran
    · cases ran
      exact good_branch good here trivial trivial rfl rfl rfl rfl 0 1 rfl rfl rfl
    · simp only [putStep] at ran
      split_ifs at ran
      cases ran
      exact good_branch good here trivial trivial rfl rfl rfl rfl 0 1 rfl rfl rfl
  | updating =>
    rw [here] at ran
    cases ran
    exact good_branch good here trivial trivial rfl rfl rfl rfl 0 0 rfl rfl rfl
  | clearing =>
    have freeing : (pc i).Freeing := by rw [here]; trivial
    have counts := good.branch i freeing
    have others (j : ι) (other : j ≠ i) : ¬(pc j).Pending := by
      rw [(good.last i (.inl freeing)).2 j other]
      exact id
    have left : ¬(PutPc.leaving.Freeing ∨ PutPc.leaving = .sampled 1) := by simp [PutPc.Freeing]
    rw [here] at ran counts
    cases fs <;> cases ran
    · exact good_within good (freeing_inside freeing) trivial rfl rfl rfl (fun there => absurd there left)
        (fun _ => ⟨id,others⟩) (fun there => there.elim) (fun _ => counts)
    · exact good_within good (freeing_inside freeing) trivial rfl rfl rfl (fun there => absurd there left)
        (fun _ => ⟨id,others⟩) (fun there => there.elim) (fun _ => counts)
  | leaving =>
    rw [here,putStep] at ran
    cases ran
    exact good_leave good here
  | dropping =>
    rw [here] at ran
    simp only [putStep] at ran
    split_ifs at ran with gone
    · cases fs <;> cases ran <;> exact good_drop good here rfl gone.symm rfl rfl rfl
    · cases ran
      exact good_drop good here rfl rfl rfl rfl rfl
  | done =>
    rw [here] at ran
    cases ran

def Doomed {ι : Type} (s : Shared ι) (pc : ι → PutPc) : Prop := s.valid = true ∧ ∀ i, ¬(pc i).Pending

omit [DecidableEq ι] [Fintype ι] in
private theorem pending_step {s' : Shared ι} {p : PutPc} (elsewhere : pc i ≠ .locked)
    (ran : putStep fs i s (pc i) = some (s',p)) :
    s'.valid = true ∧ ¬p.Pending ↔ s.valid = true ∧ ¬(pc i).Pending := by
  generalize pc i = q at elsewhere ran ⊢
  cases q with
  | locked => exact absurd rfl elsewhere
  | done => cases ran
  | start =>
    rw [putStep] at ran
    split at ran <;> cases ran
    exact iff_of_false (fun both => both.2 trivial) (fun both => both.2 trivial)
  | sampled r =>
    simp only [putStep] at ran
    split_ifs at ran with one
    · have free : p.Pending := by
        cases fs <;> cases ran <;> trivial
      exact iff_of_false (fun both => both.2 free) (fun both => both.2 one)
    · cases ran
      exact and_congr_right (fun _ => iff_of_true id one)
  | truncating =>
    have next : p.Pending := by
      cases fs <;> cases ran <;> trivial
    exact iff_of_false (fun both => both.2 next) (fun both => both.2 trivial)
  | marking =>
    have next : p.Pending := by
      cases fs
      · cases ran
        trivial
      · simp only [putStep] at ran
        split_ifs at ran
        cases ran
        trivial
    exact iff_of_false (fun both => both.2 next) (fun both => both.2 trivial)
  | updating =>
    cases ran
    exact iff_of_false (fun both => both.2 trivial) (fun both => both.2 trivial)
  | clearing =>
    have invalid : s'.valid = false := by
      cases fs <;> cases ran <;> rfl
    exact iff_of_false (fun both => by rw [invalid] at both; cases both.1) (fun both => both.2 trivial)
  | leaving =>
    cases ran
    exact Iff.rfl
  | dropping =>
    simp only [putStep] at ran
    split_ifs at ran
    · cases fs <;> cases ran <;> exact Iff.rfl
    · cases ran
      exact Iff.rfl

omit [Fintype ι] in
private theorem step_eq {c c' : Puts ι} (ran : c.step fs i = some c') :
    ∃ s p, putStep fs i c.shared (c.pc i) = some (s,p) ∧ c' = ⟨s,update c.pc i p⟩ := by
  obtain ⟨next,stepped,rfl⟩ := Option.map_eq_some_iff.mp ran
  exact ⟨next.1,next.2,stepped,rfl⟩

omit [Fintype ι] in
private theorem doomed_moved {s' : Shared ι} {p : PutPc} :
    Doomed s' (update pc i p) ↔ (s'.valid = true ∧ ¬p.Pending) ∧ ∀ j, j ≠ i → ¬(pc j).Pending := by
  constructor
  · rintro ⟨valid,none⟩
    have here := none i
    rw [update_self] at here
    refine ⟨⟨valid,here⟩,fun j other => ?_⟩
    have there := none j
    rwa [update_of_ne other] at there
  · rintro ⟨⟨valid,here⟩,others⟩
    refine ⟨valid,fun j => ?_⟩
    by_cases same : j = i
    · rw [same,update_self]
      exact here
    · rw [update_of_ne same]
      exact others j same

private theorem doomed_sample {c : Puts ι} (good : Good fs c.shared c.pc) (here : c.pc i = .locked) :
    Doomed c.shared (update c.pc i (.sampled c.shared.ref)) ↔ ¬c.Timely i := by
  have inside : (c.pc i).Inside := by rw [here]; trivial
  have valid : c.shared.valid = true := by
    by_contra invalid
    exact good.spent (Bool.not_eq_true _ ▸ invalid) i (by rw [here]; trivial)
  rw [doomed_moved]
  constructor
  · rintro ⟨⟨-,many⟩,others⟩ timely
    have waiting (j : ι) (other : j ≠ i) : c.pc j ≠ .start ∧ c.pc j ≠ .locked :=
      ⟨fun same => others j other (by rw [same]; trivial),fun same => others j other (by rw [same]; trivial)⟩
    have nobody := timely here waiting
    have single : holders c.pc = {i} := by
      ext j
      rw [mem_holders,Finset.mem_singleton]
      constructor
      · intro unfinished
        by_contra other
        have outside := good.others inside other
        have early := (waiting j other).1
        have late := nobody j
        generalize c.pc j = q at *
        cases q <;> first | exact outside trivial | contradiction
      · rintro rfl
        rw [here]
        decide
    refine many ?_
    rw [good.ref,single]
    rfl
  · intro late
    simp only [Timely,not_forall,not_not] at late
    obtain ⟨-,waiting,j,dropping⟩ := late
    have other : j ≠ i := by
      rintro rfl
      rw [here] at dropping
      cases dropping
    refine ⟨⟨valid,fun one => ?_⟩,fun k different => ?_⟩
    · have done := last_reference good (by rw [here]; decide) one j other
      rw [dropping] at done
      cases done
    · have outside := good.others inside different
      have early := (waiting k different).1
      generalize c.pc k = q at *
      cases q <;> first | exact id | exact absurd trivial outside | contradiction

private theorem doomed_step {c c' : Puts ι} (good : Good fs c.shared c.pc) (ran : c.step fs i = some c') :
    Doomed c'.shared c'.pc ↔ Doomed c.shared c.pc ∨ ¬c.Timely i := by
  obtain ⟨s',p,stepped,rfl⟩ := step_eq ran
  by_cases here : c.pc i = .locked
  · have valid : c.shared.valid = true := by
      by_contra invalid
      exact good.spent (Bool.not_eq_true _ ▸ invalid) i (by rw [here]; trivial)
    rw [here,putStep,if_pos ⟨valid,good.unlinked⟩] at stepped
    cases stepped
    have hopeful : ¬Doomed c.shared c.pc := fun doomed => doomed.2 i (by rw [here]; trivial)
    rw [doomed_sample good here,or_iff_right hopeful]
  · have timely : ¬¬c.Timely i := not_not.mpr (fun locked => absurd locked here)
    have same := update_eq_self i c.pc
    rw [or_iff_left timely,doomed_moved,pending_step here stepped,← doomed_moved,same]

private theorem step_good {c c' : Puts ι} (good : Good fs c.shared c.pc) (ran : c.step fs i = some c') :
    Good fs c'.shared c'.pc := by
  obtain ⟨s',p,stepped,rfl⟩ := step_eq ran
  exact good.step stepped

private theorem schedule_good {c c' : Puts ι} (good : Good fs c.shared c.pc) {is : List ι}
    (ran : schedule (Puts.step fs) is c = some c') : Good fs c'.shared c'.pc :=
  @schedule_invariant _ _ _ (fun c => Good fs c.shared c.pc) _ _ _ (fun _ _ _ good ran => step_good good ran) good ran

omit [DecidableEq ι] in
private theorem freed_iff {c : Puts ι} (good : Good fs c.shared c.pc) (gone : c.shared.ref = 0) :
    c.shared.truncations = 1 ∧ c.shared.frees = 1 ↔ ¬Doomed c.shared c.pc := by
  have done (i : ι) : c.pc i = .done := by
    by_contra unfinished
    have empty := Finset.card_eq_zero.mp (good.ref.symm.trans gone)
    have member := mem_holders.mpr unfinished
    rw [empty] at member
    exact absurd member (Finset.notMem_empty i)
  have counts := good.outside (fun i freeing => by rw [done] at freeing; exact freeing)
  have idle (i : ι) : ¬(c.pc i).Pending := by
    rw [done]
    exact id
  cases valid : c.shared.valid with
  | true =>
    rw [valid] at counts
    obtain ⟨truncations,-⟩ := Prod.mk.inj counts
    exact iff_of_false (fun both => by omega) (not_not.mpr ⟨valid,idle⟩)
  | false =>
    rw [valid] at counts
    refine iff_of_true (Prod.mk.inj counts) (fun doomed => ?_)
    rw [doomed.1] at valid
    cases valid

end Puts

/-- Whatever the interleaving, when the last of the references is dropped the inode has been truncated
and marked free exactly once if and only if the process that read `ref` last read it in time. -/
theorem iput_frees_once_iff {ι : Type} [DecidableEq ι] [Fintype ι] [Nonempty ι] (fs : FsType) {c c' : Puts ι}
    (initial : c.Initial) {is : List ι} (ran : schedule (Puts.step fs) is c = some c') (gone : c'.shared.ref = 0) :
    c'.shared.truncations = 1 ∧ c'.shared.frees = 1 ↔ Throughout (Puts.step fs) Puts.Timely is c := by
  have good := Puts.schedule_good initial.good ran
  have hopeful : ¬Puts.Doomed c.shared c.pc := by
    obtain ⟨i⟩ := ‹Nonempty ι›
    exact fun doomed => doomed.2 i (by rw [initial.start]; trivial)
  rw [Puts.freed_iff good gone]
  constructor
  · intro fine
    by_contra broken
    obtain ⟨before,i,after,t,t',ran₁,late,stepped,ran₂⟩ := exists_broken broken ran
    have good₁ := Puts.schedule_good initial.good ran₁
    have lost := (Puts.doomed_step good₁ stepped).mpr (.inr late)
    refine fine (@schedule_invariant _ _ _ (fun c => Puts.Good fs c.shared c.pc ∧ Puts.Doomed c.shared c.pc) _ _ _ ?_
      ⟨Puts.step_good good₁ stepped,lost⟩ ran₂).2
    exact fun _ _ _ both ran => ⟨Puts.step_good both.1 ran,(Puts.doomed_step both.1 ran).mpr (.inl both.2)⟩
  · intro timely
    refine (@schedule_keeps _ _ _ (fun c => Puts.Good fs c.shared c.pc ∧ ¬Puts.Doomed c.shared c.pc) _ _ _ _ ?_ timely
      ⟨initial.good,hopeful⟩ ran).2
    intro c i c' both timely ran
    refine ⟨Puts.step_good both.1 ran,fun doomed => ?_⟩
    exact ((Puts.doomed_step both.1 ran).mp doomed).elim both.2 (fun late => late timely)

private def opened (fs : FsType) : Puts Bool where
  shared := ⟨2,none,true,⟨2,0,0,0,5⟩,some fs,true,true,fun _ => 7,⟨2,0,5,fun _ => 7,true⟩,0,0⟩
  pc _ := .start

private theorem opened_initial (fs : FsType) : (opened fs).Initial := ⟨rfl,rfl,rfl,rfl,rfl,⟨rfl,rfl⟩,fun _ => rfl⟩

/-- One process puts the inode, then the other. -/
theorem iput_in_turn_frees_once : ∃ c', schedule (Puts.step .inbuiltfs)
      (List.replicate 5 false ++ List.replicate 8 true) (opened .inbuiltfs) = some c' ∧ c'.shared.ref = 0 ∧
    (c'.shared.truncations = 1 ∧ c'.shared.frees = 1 ↔
      Throughout (Puts.step .inbuiltfs) Puts.Timely (List.replicate 5 false ++ List.replicate 8 true)
        (opened .inbuiltfs)) :=
  ⟨_,rfl,rfl,iput_frees_once_iff .inbuiltfs (opened_initial _) rfl rfl⟩

/-- Both processes read `ref` as 2 before either drops its reference, and nobody frees the inode. -/
theorem racing_iputs_lose_inode :
    ((opened .inbuiltfs).Initial ∧ ∃ c', schedule (Puts.step .inbuiltfs)
        [false,false,false,false,true,true,true,true,false,true] (opened .inbuiltfs) = some c' ∧
      c'.shared.ref = 0 ∧ c'.shared.truncations = 0 ∧ c'.shared.frees = 0 ∧ c'.shared.disk.type = 2) ∧
    (opened .ext2fs).Initial ∧ ∃ c', schedule (Puts.step .ext2fs)
        [false,false,false,false,true,true,true,true,false,true] (opened .ext2fs) = some c' ∧
      c'.shared.ref = 0 ∧ c'.shared.truncations = 0 ∧ c'.shared.frees = 0 ∧ c'.shared.disk.used = true :=
  ⟨⟨opened_initial _,_,rfl,rfl,rfl,rfl,rfl⟩,opened_initial _,_,rfl,rfl,rfl,rfl,rfl⟩

end Xv6Ext2.Icache
