import Xv6Ext2.GroupCommit
import Mathlib

/-! The space that `begin_op` reserves. The log that mkfs lays out has `LOGSIZE` blocks with its header,
so that `log_write` refuses the block that would make it full: operations that log fewer than
`MAXOPBLOCKS` blocks never find it full. -/
namespace Xv6Ext2.GroupCommit
open Lib Bio Log Function

def spare (place : Pc × Finset Blockno) : Nat := place.1.active * (maxopblocks - 1 - place.2.card)

/-- The block that a process is about to log. -/
def Pc.pending : Pc → Option Blockno
  | .writing b | .appending b => some b
  | _ => none

theorem Pc.active_le_one (p : Pc) : p.active ≤ 1 := by
  cases p <;> first | exact Nat.le_refl 1 | exact Nat.zero_le 1

/-- With this `log_write` the operation has logged at most `budget` distinct blocks. -/
def Within {ι : Type} (budget : Nat) (s : State ι) (turn : ι × Move) : Prop :=
  match turn.2 with
  | .write b => (insert b (s.logged turn.1)).card ≤ budget
  | _ => True

instance {ι : Type} (budget : Nat) (s : State ι) : ∀ turn, Decidable (Within budget s turn)
  | (_,.write _) => inferInstanceAs (Decidable (_ ≤ _))
  | (_,.go) | (_,.begin) | (_,.finish) => .isTrue trivial

theorem Within.mono {ι : Type} {budget larger : Nat} (le : budget ≤ larger) {s : State ι} {turn : ι × Move}
    (within : Within budget s turn) : Within larger s turn := by
  obtain ⟨i,m⟩ := turn
  cases m with
  | write b => exact Nat.le_trans within le
  | go | begin | finish => trivial

namespace State

variable {ι : Type} [Fintype ι] {s s' : State ι} {i : ι}

/-- What is logged and what the operations in progress may still log is less than the log holds. -/
structure Budget (s : State ι) : Prop where
  size : s.size = logsize
  mine : ∀ i, (s.pc i).active = 1 → ∀ b ∈ s.logged i, b ∈ s.lh
  next : ∀ i b, (s.pc i).pending = some b → (insert b (s.logged i)).card < maxopblocks
  room : s.lh.length + ∑ i, spare (s.pc i,s.logged i) + 2 ≤ logsize
  fits : s.fault ≠ some (.panic "too big a transaction")

theorem Initial.budget (initial : s.Initial) (size : s.size = logsize) : s.Budget where
  size := size
  mine i active := by rw [initial.idle] at active; cases active
  next i b place := by rw [initial.idle] at place; cases place
  room := by simp [initial.lh,initial.idle,spare,Pc.active_idle,logsize,maxopblocks]
  fits := by rw [initial.fault]; exact (Option.some_ne_none _).symm

private theorem spare_le (s : State ι) : ∑ i, spare (s.pc i,s.logged i) ≤ (maxopblocks - 1) * ∑ i, (s.pc i).active := by
  rw [Finset.mul_sum]
  refine Finset.sum_le_sum (fun i _ => ?_)
  rw [spare,Nat.mul_comm (maxopblocks - 1)]
  exact Nat.mul_le_mul_left _ (Nat.sub_le _ _)

variable [DecidableEq ι]

private theorem budget_moved (budget : s.Budget) {p : Pc} {l : Finset Blockno} (pc : s'.pc = update s.pc i p)
    (logged : s'.logged = update s.logged i l) (size : s'.size = s.size)
    (mine : ∀ j, j ≠ i → (s.pc j).active = 1 → ∀ b ∈ s.logged j, b ∈ s'.lh)
    (mine' : p.active = 1 → ∀ b ∈ l, b ∈ s'.lh)
    (next : ∀ b, p.pending = some b → (insert b l).card < maxopblocks)
    (room : s'.lh.length + ∑ j, spare (s.pc j,s.logged j) + spare (p,l) + 2 ≤ logsize + spare (s.pc i,s.logged i))
    (fits : s'.fault = s.fault) : s'.Budget := by
  have moved := sum_moved (fun j => (s.pc j,s.logged j)) spare i (p,l)
  have places : (fun j => spare (s'.pc j,s'.logged j)) =
      fun j => spare (update (fun j => (s.pc j,s.logged j)) i (p,l) j) := by
    funext j
    rw [pc,logged]
    by_cases here : j = i
    · rw [here,update_self,update_self,update_self]
    · rw [update_of_ne here,update_of_ne here,update_of_ne here]
  refine ⟨size.trans budget.size,?_,?_,?_,by rw [fits]; exact budget.fits⟩
  · intro j active b member
    by_cases here : j = i
    · rw [here,pc,update_self] at active
      rw [here,logged,update_self] at member
      exact mine' active b member
    · rw [pc,update_of_ne here] at active
      rw [logged,update_of_ne here] at member
      exact mine j here active b member
  · intro j b place
    by_cases here : j = i
    · rw [here,pc,update_self] at place
      rw [here,logged,update_self]
      exact next b place
    · rw [pc,update_of_ne here] at place
      rw [logged,update_of_ne here]
      exact budget.next j b place
  · rw [places]
    omega

private theorem budget_walked (budget : s.Budget) {p : Pc} (pc : s'.pc = update s.pc i p)
    (logged : s'.logged = s.logged) (size : s'.size = s.size) (lh : s'.lh = s.lh)
    (active : p.active ≤ (s.pc i).active)
    (next : ∀ b, p.pending = some b → (insert b (s.logged i)).card < maxopblocks)
    (fits : s'.fault = s.fault) : s'.Budget := by
  refine budget_moved budget pc (logged.trans (update_eq_self i s.logged).symm) size ?_ ?_ next ?_ fits
  · rw [lh]
    exact fun j _ inside => budget.mine j inside
  · rw [lh]
    intro inside
    have before : (s.pc i).active = 1 := by
      have := (s.pc i).active_le_one
      omega
    exact budget.mine i before
  · have room := budget.room
    have less : spare (p,s.logged i) ≤ spare (s.pc i,s.logged i) := Nat.mul_le_mul_right _ active
    rw [lh]
    omega

private theorem budget_logged (budget : s.Budget) {b : Blockno} (here : s.pc i = .appending b)
    (pc : s'.pc = update s.pc i .inOp)
    (logged : s'.logged = update s.logged i (insert b (s.logged i))) (size : s'.size = s.size)
    (lh : ∀ b', b' ∈ s'.lh ↔ b' = b ∨ b' ∈ s.lh) (length : s'.lh.length ≤ s.lh.length + if b ∈ s.lh then 0 else 1)
    (fits : s'.fault = s.fault) : s'.Budget := by
  have mine := budget.mine i (by rw [here]; rfl)
  have few := budget.next i b (by rw [here]; rfl)
  refine budget_moved budget pc logged size ?_ ?_ (by rintro _ ⟨⟩) ?_ fits
  · exact fun j _ inside b' member => (lh b').mpr (Or.inr (budget.mine j inside b' member))
  · intro _ b' member
    rcases Finset.mem_insert.mp member with same | member
    · exact (lh b').mpr (Or.inl same)
    · exact (lh b').mpr (Or.inr (mine b' member))
  · have room := budget.room
    have before : spare (s.pc i,s.logged i) = maxopblocks - 1 - (s.logged i).card := by rw [here]; exact Nat.one_mul _
    have after : spare (.inOp,insert b (s.logged i)) = maxopblocks - 1 - (insert b (s.logged i)).card := Nat.one_mul _
    rw [before,after]
    split_ifs at length with present
    · have := Finset.card_le_card (Finset.subset_insert b (s.logged i))
      omega
    · rw [Finset.card_insert_of_notMem (fun member => present (mine b member))] at few ⊢
      omega

theorem Budget.step (budget : s.Budget) (inv : s.Inv) {m : Move} (within : Within (maxopblocks - 1) s (i,m))
    (step : s.Step i m s') : s'.Budget := by
  cases step with
  | @acquired p change free =>
    refine budget_walked budget rfl rfl rfl rfl ?_ ?_ rfl
    · generalize s.pc i = q at change
      cases q <;> cases p <;> first | cases change; done | exact Nat.le_refl _
    · intro b pending
      have before : (s.pc i).pending = some b := by
        generalize s.pc i = q at change
        cases q <;> cases p <;> first | cases change; done | cases pending; done | skip
        rw [← pending]
        exact congrArg some change
      exact budget.next i b before
  | slept here => exact budget_walked budget rfl rfl rfl rfl (by rw [here]; decide) (by rintro _ ⟨⟩) rfl
  | admitted here allowed =>
    obtain ⟨running,fits⟩ := not_or.mp allowed
    refine budget_moved budget rfl rfl rfl (fun j _ => budget.mine j) (fun _ b member => absurd member (Finset.notMem_empty b)) (by rintro _ ⟨⟩) ?_ rfl
    have idle : spare (s.pc i,s.logged i) = 0 := by rw [here]; exact Nat.zero_mul _
    have fresh : spare (.inOp,∅) = maxopblocks - 1 := rfl
    have spared := spare_le s
    rw [← inv.active] at spared
    have empty : s.outstanding = 0 → s.lh = [] := fun zero => inv.emptied (.inr ⟨by simpa using running,zero⟩)
    rw [idle,fresh]
    simp only [full,maxopblocks,logsize,goto] at fits spared ⊢
    by_cases zero : s.outstanding = 0
    · rw [empty zero,zero] at *
      simp only [List.length_nil]
      omega
    · omega
  | nodded here => exact budget_walked budget rfl rfl rfl rfl (by rw [here]; decide) (by rintro _ ⟨⟩) rfl
  | descheduled here => exact budget_walked budget rfl rfl rfl rfl (by rw [here]; decide) (by rintro _ ⟨⟩) rfl
  | checked b asked here room =>
    rw [asked] at within
    refine budget_walked budget rfl rfl rfl rfl (by rw [here]; rfl) ?_ rfl
    rintro _ ⟨⟩
    exact Nat.lt_succ_of_le within
  | overflowed b here tight =>
    have := budget.room
    have := budget.size
    omega
  | stray => exact ⟨budget.size,budget.mine,budget.next,budget.room,by simp⟩
  | absorbed b here present =>
    refine budget_logged budget here rfl rfl rfl (fun b' => ?_) (by rw [if_pos present]; rfl) rfl
    exact ⟨Or.inr,fun either => either.elim (fun same => same ▸ present) id⟩
  | appended b here absent fits =>
    refine budget_logged budget here rfl rfl rfl (fun b' => ?_) (by rw [if_neg absent]; simp [goto]) rfl
    simp [goto,or_comm]
  | overran b here long =>
    have := budget.room
    omega
  | clashed => exact ⟨budget.size,budget.mine,budget.next,budget.room,by simp⟩
  | last here => exact budget_walked budget rfl rfl rfl rfl (by rw [here]; decide) (by rintro _ ⟨⟩) rfl
  | left here => exact budget_walked budget rfl rfl rfl rfl (by rw [here]; decide) (by rintro _ ⟨⟩) rfl
  | cleared here =>
    have committing := inv.committer (i := i) (by rw [here]; rfl)
    refine budget_moved budget rfl (update_eq_self i s.logged).symm rfl ?_ (by rintro ⟨⟩) (by rintro _ ⟨⟩) ?_ rfl
    · intro j _ inside
      have := inv.running inside
      rw [committing] at this
      cases this
    · have room := budget.room
      have done : spare (.committed,s.logged i) = 0 := Nat.zero_mul _
      rw [done]
      simp only [goto,List.length_nil]
      omega
  | finished here => exact budget_walked budget rfl rfl rfl rfl (by rw [here]; decide) (by rintro _ ⟨⟩) rfl
  | woke here =>
    refine ⟨budget.size,fun j => ?_,fun j b => ?_,?_,budget.fits⟩
    · rw [woke_same (f := Pc.active) here rfl rfl]
      exact budget.mine j
    · rw [woke_same (f := Pc.pending) here rfl rfl]
      exact budget.next j b
    · refine le_of_eq_of_le ?_ budget.room
      refine congrArg (s.lh.length + · + 2) (Finset.sum_congr rfl (fun j _ => ?_))
      exact woke_same (f := fun p => spare (p,s.logged j)) here rfl rfl j
  | released here => exact budget_walked budget rfl rfl rfl rfl (by rw [here]; decide) (by rintro _ ⟨⟩) rfl

theorem Initial.schedule_budget (initial : s.Initial) (size : s.size = logsize) {turns : List (ι × Move)}
    (within : Throughout State.step (Within (maxopblocks - 1)) turns s)
    (ran : schedule State.step turns s = some s') : s'.Budget := by
  refine (@schedule_keeps _ _ _ (fun s : State ι => s.Inv ∧ s.Budget) _ s s' turns ?_ within
    ⟨initial.inv,initial.budget size⟩ ran).2
  intro t turn t' both ok stepped
  have step := step_cases stepped
  exact ⟨both.1.step step,both.2.step both.1 ok step⟩

end State

/-- The log that mkfs lays out, and three processes. -/
private def threeIdle : State (Fin 3) := ⟨30,0,false,[],none,none,none,fun _ => .idle,fun _ => ∅,0⟩

/-- The calls of `log_write` for blocks `b`, ..., `b + n - 1`. -/
private def logBlocks (i : Fin 3) (b n : Nat) : List (Fin 3 × Move) :=
  (List.range n).flatMap (fun k => [(i,.write (UInt32.ofNat (b + k))),(i,.go),(i,.go)])

/-- Three operations start, log 29 blocks between them, and the third one logs its tenth. -/
private def thirtyBlocks : List (Fin 3 × Move) :=
  [(0,.begin),(0,.go),(1,.begin),(1,.go),(2,.begin),(2,.go)] ++ logBlocks 0 100 10 ++ logBlocks 1 110 10 ++
    logBlocks 2 120 9 ++ [(2,.write 129)]

private theorem threeIdle_initial : threeIdle.Initial := ⟨rfl,rfl,rfl,rfl,rfl,rfl,fun _ => rfl⟩

set_option maxRecDepth 4000 in
private theorem thirtyBlocks_within : Throughout State.step (Within maxopblocks) thirtyBlocks threeIdle := by
  decide +kernel

private theorem thirtyBlocks_panics :
    (schedule State.step thirtyBlocks threeIdle).bind State.fault = some (.panic "too big a transaction") := by
  decide +kernel

/-- The panic of `log_write` cannot be reached by operations that log at most `budget` distinct blocks each. -/
def Sufficient (budget : Nat) : Prop :=
  ∀ (ι : Type) [DecidableEq ι] [Fintype ι] (s s' : State ι) (turns : List (ι × Move)), s.Initial → s.size = logsize →
    Throughout State.step (Within budget) turns s → schedule State.step turns s = some s' →
      s'.fault ≠ some (.panic "too big a transaction")

private theorem not_sufficient {budget : Nat} (allowed : maxopblocks ≤ budget) : ¬Sufficient budget := by
  intro sufficient
  obtain ⟨s',ran,panicked⟩ := Option.bind_eq_some_iff.mp thirtyBlocks_panics
  have within : Throughout State.step (Within budget) thirtyBlocks threeIdle :=
    thirtyBlocks_within.mono (fun s turn => Within.mono allowed)
  exact sufficient _ _ _ _ threeIdle_initial rfl within ran panicked

/-- The reservation is one block short of `MAXOPBLOCKS` for each operation. -/
theorem log_space_suffices_iff (budget : Nat) : Sufficient budget ↔ budget < maxopblocks := by
  constructor
  · intro sufficient
    by_contra large
    exact not_sufficient (Nat.le_of_not_lt large) sufficient
  · intro small ι _ _ s s' turns initial size within ran
    have frugal : Throughout State.step (Within (maxopblocks - 1)) turns s :=
      within.mono (fun s turn => Within.mono (Nat.le_sub_one_of_lt small))
    exact (initial.schedule_budget size frugal ran).fits

/-- Three operations that log ten blocks each: the last of the thirty does not fit. -/
theorem thirty_blocks_too_big : threeIdle.Initial ∧ threeIdle.size = logsize ∧
    Throughout State.step (Within maxopblocks) thirtyBlocks threeIdle ∧
    ∃ s', schedule State.step thirtyBlocks threeIdle = some s' ∧ s'.fault = some (.panic "too big a transaction") :=
  ⟨threeIdle_initial,rfl,thirtyBlocks_within,Option.bind_eq_some_iff.mp thirtyBlocks_panics⟩

end Xv6Ext2.GroupCommit
