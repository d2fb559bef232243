import Xv6Ext2.Grep.Match
import Xv6Ext2.Memmove

/-! The loop of grep.c over its input, which comes in the pieces that `read` returns. -/
namespace Xv6Ext2.Grep
open Lib Function

def newline : UInt8 := 10

/-- `sizeof(buf)` -/
def bufSize : Nat := 1024

/-- `strchr(s, c)` of ulib.c in a buffer of which `left` bytes are left at `s`; `none` if it runs out of the buffer. -/
def strchr (buf : Memory) (c : UInt8) : Nat → Nat → Option (Option Nat)
  | 0, _ => none
  | left + 1, s => if buf s = 0 then some none else if buf s = c then some (some s) else strchr buf c left (s + 1)

/-- The bytes that `write(1, p, n)` writes. -/
def bytesAt (buf : Memory) (p n : Nat) : List UInt8 := (List.range n).map fun i => buf (p + i)

/-- The inner loop of `grep`. It gives the buffer, `p` and what was written. -/
def linesLoop (pattern : List UInt8) : Nat → Memory → Nat → List UInt8 → Option (Memory × Nat × List UInt8)
  | 0, _, _, _ => none
  | fuel + 1, buf, p, out => do
    match ← strchr buf newline (bufSize - p) p with
    | none => return (buf,p,out)
    | some q =>
      let buf := update buf q 0
      if ← matchText (cstring pattern) buf (pattern.length + bufSize) 0 p then
        let buf := update buf q newline
        linesLoop pattern fuel buf (q + 1) (out ++ bytesAt buf p (q + 1 - p))
      else linesLoop pattern fuel buf (q + 1) out

structure State where
  buf : Memory
  m : Nat
  out : List UInt8

/-- The body of the loop of `grep` when `read` has returned the bytes of `piece`; `none` if it leaves the buffer. -/
def round (pattern piece : List UInt8) (s : State) : Option State := do
  let buf := poke s.buf s.m piece.length (cstring piece)
  let m := s.m + piece.length
  if m < bufSize then
    let buf := update buf m 0
    let (buf,p,out) ← linesLoop pattern bufSize buf 0 s.out
    let m := if p = 0 then 0 else m
    if m > 0 then
      let m := m - p
      return ⟨Ulib.memmove buf 0 p m,m,out⟩
    else return ⟨buf,m,out⟩
  else none

/-- `grep(pattern, fd)` when the calls of `read` return these pieces. -/
def grep (pattern : List UInt8) : List (List UInt8) → State → Option State
  | [], s => some s
  | piece :: pieces, s => do grep pattern pieces (← round pattern piece s)

/-- The pieces are what `read` may return: they are not empty, and no longer than what is asked for. -/
def Delivered (pattern : List UInt8) : List (List UInt8) → State → Prop
  | [], _ => True
  | piece :: pieces, s => piece ≠ [] ∧ piece.length ≤ bufSize - s.m - 1 ∧
    ∀ s', round pattern piece s = some s' → Delivered pattern pieces s'

def fullLines (input : List UInt8) : List (List UInt8) := (input.splitOn newline).dropLast

def unfinished (input : List UInt8) : List UInt8 := (input.splitOn newline).getLastD []

open Classical in
/-- What `grep` is for: the lines that match, with their newlines. -/
noncomputable def matching (pattern input : List UInt8) : List UInt8 :=
  ((fullLines input).filter fun line => Matches pattern line).flatMap fun line => line ++ [newline]

section

variable {l t u : List UInt8} (free : newline ∉ l)

include free in
theorem splitOn_line (t : List UInt8) : (l ++ newline :: t).splitOn newline = l :: t.splitOn newline := by
  apply List.splitOnP_append_cons_of_forall_mem
  · intro c member
    rw [beq_eq_false_iff_ne]
    rintro rfl
    exact free member
  · decide

include free in
theorem splitOn_free : l.splitOn newline = [l] := by
  apply List.splitOnP_eq_singleton
  intro c member
  rw [beq_eq_false_iff_ne]
  rintro rfl
  exact free member

theorem splitOn_ne_nil (t : List UInt8) : t.splitOn newline ≠ [] := List.splitOnP_ne_nil _ _

include free in
theorem unfinished_free : unfinished l = l := by
  rw [unfinished,splitOn_free free]
  rfl

include free in
theorem unfinished_line : unfinished (l ++ newline :: t) = unfinished t := by
  obtain ⟨first,rest,split⟩ := List.exists_cons_of_ne_nil (splitOn_ne_nil t)
  rw [unfinished,unfinished,splitOn_line free,split]
  rfl

include free in
theorem matching_free (pattern : List UInt8) : matching pattern l = [] := by
  rw [matching,fullLines,splitOn_free free]
  rfl

open Classical in
include free in
theorem matching_line (pattern t : List UInt8) :
    matching pattern (l ++ newline :: t) = (if Matches pattern l then l ++ [newline] else []) ++ matching pattern t := by
  rw [matching,fullLines,splitOn_line free,List.dropLast_cons_of_ne_nil (splitOn_ne_nil t)]
  split_ifs with fits
  · rw [List.filter_cons_of_pos (by simpa using fits)]
    rfl
  · rw [List.filter_cons_of_neg (by simpa using fits)]
    rfl

theorem line_induction {motive : List UInt8 → Prop} (last : ∀ l, newline ∉ l → motive l)
    (line : ∀ l t, newline ∉ l → motive t → motive (l ++ newline :: t)) (t : List UInt8) : motive t := by
  induction size : t.length using Nat.strong_induction_on generalizing t with
  | _ n ih =>
    by_cases member : newline ∈ t
    · obtain ⟨l,rest,rfl,free⟩ := List.eq_append_cons_of_mem member
      rw [List.length_append,List.length_cons] at size
      exact line l rest free (ih rest.length (by omega) rest rfl)
    · exact last t member

theorem unfinished_ends (t : List UInt8) : ∃ front, t = front ++ unfinished t := by
  induction t using line_induction with
  | last l free => exact ⟨[],by rw [unfinished_free free]; rfl⟩
  | line l t free ih =>
    obtain ⟨front,whole⟩ := ih
    refine ⟨l ++ newline :: front,?_⟩
    rw [unfinished_line free,List.append_assoc,List.cons_append,← whole]

theorem newline_not_mem_unfinished (t : List UInt8) : newline ∉ unfinished t := by
  induction t using line_induction with
  | last l free => rwa [unfinished_free free]
  | line l t free ih => rwa [unfinished_line free]

theorem matching_append (pattern t u : List UInt8) :
    matching pattern (t ++ u) = matching pattern t ++ matching pattern (unfinished t ++ u) := by
  induction t using line_induction with
  | last l free => rw [matching_free free,unfinished_free free,List.nil_append]
  | line l t free ih =>
    rw [List.append_assoc,List.cons_append,matching_line free,matching_line free,ih,unfinished_line free,List.append_assoc]

end

section

variable {buf : Memory} {p left : Nat} {l t : List UInt8}

theorem strchr_free (free : newline ∉ t) (text : Stored buf p t) (room : t.length < left) : strchr buf newline left p = some none := by
  obtain ⟨left,rfl⟩ : ∃ k, left = k + 1 := ⟨left - 1,by omega⟩
  induction t generalizing p left with
  | nil => rw [strchr,if_pos text.at_end]
  | cons c t ih =>
    rw [List.length_cons] at room
    obtain ⟨left,rfl⟩ : ∃ k, left = k + 1 := ⟨left - 1,by omega⟩
    have other : c ≠ newline := fun same => free (by rw [same]; exact List.mem_cons_self)
    rw [strchr,text.head,if_neg text.head_ne_zero,if_neg other]
    exact ih (fun member => free (List.mem_cons_of_mem c member)) text.tail left (by omega)

theorem strchr_line (free : newline ∉ l) (text : Stored buf p (l ++ newline :: t)) (room : l.length < left) :
    strchr buf newline left p = some (some (p + l.length)) := by
  obtain ⟨left,rfl⟩ : ∃ k, left = k + 1 := ⟨left - 1,by omega⟩
  induction l generalizing p left with
  | nil =>
    have byte : buf p = newline := text.head
    rw [strchr,byte,if_neg (by decide),if_pos rfl]
    rfl
  | cons c l ih =>
    rw [List.length_cons] at room
    obtain ⟨left,rfl⟩ : ∃ k, left = k + 1 := ⟨left - 1,by omega⟩
    have other : c ≠ newline := fun same => free (by rw [same]; exact List.mem_cons_self)
    have byte : buf p = c := text.head
    rw [strchr,byte,if_neg (text.head_ne_zero),if_neg other,
      ih (fun member => free (List.mem_cons_of_mem c member)) text.tail left (by omega),List.length_cons]
    congr 2
    omega

theorem Stored.cut (text : Stored buf p (l ++ newline :: t)) : Stored (update buf (p + l.length) 0) p l where
  plain := fun zero => text.plain (List.mem_append_left _ zero)
  bytes := by
    intro i inside
    by_cases last : i = l.length
    · rw [last,update_self,cstring_end l (Nat.le_refl _)]
    · rw [update_of_ne (by omega),text.bytes i (by rw [List.length_append]; omega),
        cstring_append_left _ _ (by omega)]

theorem Stored.update_before {q : Nat} (text : Stored buf p t) (before : q < p) (c : UInt8) : Stored (update buf q c) p t where
  plain := text.plain
  bytes := by
    intro i inside
    rw [update_of_ne (by omega)]
    exact text.bytes i inside

theorem bytesAt_line (text : Stored (update buf (p + l.length) 0) p l) :
    bytesAt (update (update buf (p + l.length) 0) (p + l.length) newline) p (l.length + 1) = l ++ [newline] := by
  rw [bytesAt,List.range_succ,List.map_append,List.map_singleton,update_self]
  congr 1
  apply List.ext_getElem
  · simp
  · intro i _ inside
    rw [List.getElem_map,List.getElem_range,update_of_ne (by omega),text.bytes i (by omega),cstring,
      List.getD_eq_getElem _ _ inside]

end

theorem linesLoop_eq {pattern : List UInt8} (plain : 0 ∉ pattern) {fuel p : Nat} {buf : Memory} {t : List UInt8} (out : List UInt8)
    (text : Stored buf p t) (room : p + t.length < bufSize) (enough : t.length < fuel) :
    ∃ buf' q, linesLoop pattern fuel buf p out = some (buf',q,out ++ matching pattern t) ∧
      q + (unfinished t).length = p + t.length ∧ Stored buf' q (unfinished t) := by
  induction t using line_induction generalizing fuel p buf out with
  | last l free =>
    obtain ⟨fuel,rfl⟩ : ∃ k, fuel = k + 1 := ⟨fuel - 1,by omega⟩
    rw [linesLoop,strchr_free free text (by omega),matching_free free,unfinished_free free,List.append_nil]
    exact ⟨buf,p,rfl,rfl,text⟩
  | line l t free ih =>
    obtain ⟨fuel,rfl⟩ : ∃ k, fuel = k + 1 := ⟨fuel - 1,by omega⟩
    rw [List.length_append,List.length_cons] at room enough
    have line := Stored.cut text
    have behind : Stored buf (p + l.length + 1) t := (text.rest).tail
    have cut := Stored.update_before behind (Nat.lt_succ_self _) 0
    have pat : Stored (cstring pattern) 0 pattern := ⟨plain,fun i _ => by rw [Nat.zero_add]⟩
    obtain ⟨b,ran,meaning⟩ := matchText_decides pat line (pattern.length + bufSize) (by omega)
    rw [linesLoop,strchr_line free text (by omega),unfinished_line free,matching_line free,List.length_append,List.length_cons,
      Option.bind_eq_bind,Option.bind_some]
    dsimp only
    rw [ran,Option.bind_eq_bind,Option.bind_some]
    cases b with
    | true =>
      have restored := Stored.update_before cut (Nat.lt_succ_self _) newline
      obtain ⟨buf',q,loop,stop,rest⟩ := ih (out ++ (l ++ [newline])) restored (by omega) (by omega : t.length < fuel)
      rw [if_pos rfl,if_pos (meaning.mp rfl),Nat.add_assoc,Nat.add_sub_cancel_left,bytesAt_line line,← Nat.add_assoc,loop,
        List.append_assoc out]
      exact ⟨buf',q,rfl,by omega,rest⟩
    | false =>
      obtain ⟨buf',q,loop,stop,rest⟩ := ih out cut (by omega) (by omega : t.length < fuel)
      rw [if_neg (by decide),if_neg fun fits => absurd (meaning.mpr fits) (by decide),loop]
      exact ⟨buf',q,rfl,by omega,rest⟩

theorem unfinished_length_le (t : List UInt8) : (unfinished t).length ≤ t.length := by
  obtain ⟨front,whole⟩ := unfinished_ends t
  have size := congrArg List.length whole
  rw [List.length_append] at size
  omega

theorem unfinished_length_lt {t : List UInt8} (member : newline ∈ t) : (unfinished t).length < t.length := by
  obtain ⟨l,rest,rfl,free⟩ := List.eq_append_cons_of_mem member
  have := unfinished_length_le rest
  rw [unfinished_line free,List.length_append,List.length_cons]
  omega

theorem memmove_front (buf : Memory) (q n : Nat) {i : Nat} (inside : i < n) : Ulib.memmove buf 0 q n i = buf (q + i) := by
  have steps : ∀ p i : Nat, (· + 1)^[i] p = p + i := by
    intro p i
    induction i with
    | zero => rfl
    | succ i ih => rw [iterate_succ_apply',ih,Nat.add_assoc]
  have copied : copyCells (· + 1) buf 0 q n ((· + 1)^[i] 0) = buf ((· + 1)^[i] q) := by
    apply copyCells_inside buf _ _ inside
    · intro i j less _
      rw [steps,steps]
      omega
    · intro i j less _
      rw [steps,steps]
      omega
  rwa [steps,steps,Nat.zero_add] at copied

structure Carries (s : State) (carry : List UInt8) : Prop where
  size : s.m = carry.length
  bytes : ∀ i < carry.length, s.buf i = cstring carry i
  plain : 0 ∉ carry
  free : newline ∉ carry

theorem Carries.stored {s : State} {carry piece : List UInt8} (carries : Carries s carry) (plain : 0 ∉ piece) :
    Stored (update (poke s.buf s.m piece.length (cstring piece)) (s.m + piece.length) 0) 0 (carry ++ piece) where
  plain := by
    intro zero
    exact (List.mem_append.mp zero).elim carries.plain plain
  bytes := by
    intro i inside
    rw [List.length_append] at inside
    rw [Nat.zero_add,carries.size]
    by_cases last : i = carry.length + piece.length
    · rw [last,update_self,cstring_end _ (by rw [List.length_append])]
    · rw [update_of_ne last,poke]
      by_cases early : i < carry.length
      · rw [if_neg (by omega),carries.bytes i early,cstring_append_left _ _ early]
      · rw [if_pos (by omega),cstring_append_right _ _ (by omega)]

theorem round_eq {pattern piece carry : List UInt8} {s : State} (plain : 0 ∉ pattern) (carries : Carries s carry) (text : 0 ∉ piece)
    (nonempty : piece ≠ []) (asked : piece.length ≤ bufSize - s.m - 1) :
    ∃ s', round pattern piece s = some s' ∧ s'.out = s.out ++ matching pattern (carry ++ piece) ∧
      Carries s' (if newline ∈ piece then unfinished (carry ++ piece) else []) := by
  have positive := List.length_pos_of_ne_nil nonempty
  have stored := carries.stored text
  have size : (carry ++ piece).length = s.m + piece.length := by rw [List.length_append,carries.size]
  have enough : (carry ++ piece).length < bufSize := by omega
  obtain ⟨buf,q,ran,stop,rest⟩ := linesLoop_eq plain s.out stored (by omega) enough
  rw [round]
  dsimp only
  rw [if_pos (by omega),ran,Option.bind_eq_bind,Option.bind_some]
  dsimp only
  by_cases member : newline ∈ piece
  · have shorter := unfinished_length_lt (List.mem_append_right carry member)
    have moved : q ≠ 0 := by omega
    rw [if_neg moved,if_pos (by omega),if_pos member]
    refine ⟨_,rfl,rfl,by dsimp only; omega,?_,rest.plain,newline_not_mem_unfinished _⟩
    intro i inside
    dsimp only
    rw [memmove_front _ _ _ (by omega)]
    exact rest.bytes i inside.le
  · have free : newline ∉ carry ++ piece := fun either => (List.mem_append.mp either).elim carries.free member
    rw [unfinished_free free] at stop
    have unmoved : q = 0 := by omega
    rw [if_pos unmoved,if_neg (Nat.lt_irrefl 0),if_neg member]
    exact ⟨_,rfl,rfl,rfl,fun i inside => absurd inside (Nat.not_lt_zero i),List.not_mem_nil,List.not_mem_nil⟩

/-- What `grep` writes, in terms of the pieces: a piece without a newline is dropped, with the part of a line before it. -/
noncomputable def written (pattern : List UInt8) : List UInt8 → List (List UInt8) → List UInt8
  | _, [] => []
  | carry, piece :: pieces =>
    matching pattern (carry ++ piece) ++ written pattern (if newline ∈ piece then unfinished (carry ++ piece) else []) pieces

theorem grep_eq {pattern : List UInt8} (plain : 0 ∉ pattern) {pieces : List (List UInt8)} (text : ∀ piece ∈ pieces, 0 ∉ piece)
    {s : State} {carry : List UInt8} (carries : Carries s carry) (delivered : Delivered pattern pieces s) :
    ∃ s', grep pattern pieces s = some s' ∧ s'.out = s.out ++ written pattern carry pieces := by
  induction pieces generalizing s carry with
  | nil => exact ⟨s,rfl,(List.append_nil _).symm⟩
  | cons piece pieces ih =>
    obtain ⟨nonempty,asked,later⟩ := delivered
    obtain ⟨s₁,ran,out,carries⟩ := round_eq plain carries (text piece List.mem_cons_self) nonempty asked
    obtain ⟨s₂,rest,out'⟩ := ih (fun piece member => text piece (List.mem_cons_of_mem _ member)) carries (later s₁ ran)
    rw [grep,ran,Option.bind_eq_bind,Option.bind_some,rest]
    exact ⟨s₂,rfl,by rw [out',out,written,List.append_assoc]⟩

/-- Every piece that is followed by a newline in a later piece has a newline itself. -/
def EveryPieceEnds (pieces : List (List UInt8)) : Prop := pieces.Pairwise fun a b => newline ∈ b → newline ∈ a

instance (pieces : List (List UInt8)) : Decidable (EveryPieceEnds pieces) := inferInstanceAs (Decidable (pieces.Pairwise _))

theorem written_free {pattern carry : List UInt8} {pieces : List (List UInt8)} (free : newline ∉ carry)
    (all : ∀ piece ∈ pieces, newline ∉ piece) : written pattern carry pieces = [] := by
  induction pieces generalizing carry with
  | nil => rfl
  | cons piece pieces ih =>
    have here := all piece List.mem_cons_self
    have whole : newline ∉ carry ++ piece := fun either => (List.mem_append.mp either).elim free here
    rw [written,matching_free whole,if_neg here,ih List.not_mem_nil fun piece member => all piece (List.mem_cons_of_mem _ member)]
    rfl

theorem written_of_ends {pattern carry : List UInt8} {pieces : List (List UInt8)} (free : newline ∉ carry) (ends : EveryPieceEnds pieces) :
    written pattern carry pieces = matching pattern (carry ++ pieces.flatten) := by
  induction pieces generalizing carry with
  | nil =>
    rw [List.flatten_nil,List.append_nil,matching_free free]
    rfl
  | cons piece pieces ih =>
    obtain ⟨first,rest⟩ := List.pairwise_cons.mp ends
    by_cases member : newline ∈ piece
    · rw [written,if_pos member,ih (newline_not_mem_unfinished _) rest,List.flatten_cons,← List.append_assoc,
        matching_append pattern (carry ++ piece)]
    · have none : ∀ b ∈ piece :: pieces, newline ∉ b := by
        intro b inside
        obtain rfl | inside := List.mem_cons.mp inside
        · exact member
        · exact fun ends => member (first b inside ends)
      rw [written_free free none,matching_free]
      intro either
      obtain inside | inside := List.mem_append.mp either
      · exact free inside
      · obtain ⟨b,among,inside⟩ := List.mem_flatten.mp inside
        exact none b among inside

theorem matches_empty (line : List UInt8) : Matches [] line := by
  rw [Matches,if_neg (by simp)]
  exact ⟨line,List.suffix_refl line,starts_nothing line⟩

theorem matching_empty_length {u t : List UInt8} (free : newline ∉ u) (member : newline ∈ t) :
    (matching [] (u ++ t)).length = u.length + (matching [] t).length := by
  obtain ⟨l,rest,rfl,free'⟩ := List.eq_append_cons_of_mem member
  have whole : newline ∉ u ++ l := fun either => (List.mem_append.mp either).elim free free'
  rw [← List.append_assoc,matching_line whole,matching_line free',if_pos (matches_empty _),if_pos (matches_empty _)]
  simp only [List.length_append]
  omega

theorem written_empty_length {carry : List UInt8} {pieces : List (List UInt8)} (free : newline ∉ carry)
    (nonempty : ∀ piece ∈ pieces, piece ≠ []) :
    (written [] carry pieces).length ≤ (matching [] (carry ++ pieces.flatten)).length ∧
      (¬ EveryPieceEnds pieces → (written [] carry pieces).length < (matching [] (carry ++ pieces.flatten)).length) := by
  induction pieces generalizing carry with
  | nil => exact ⟨Nat.zero_le _,fun broken => absurd List.Pairwise.nil broken⟩
  | cons piece pieces ih =>
    have later : ∀ piece ∈ pieces, piece ≠ [] := fun piece member => nonempty piece (List.mem_cons_of_mem _ member)
    rw [written,List.flatten_cons,← List.append_assoc]
    by_cases member : newline ∈ piece
    · have rest := ih (newline_not_mem_unfinished (carry ++ piece)) later
      rw [if_pos member,matching_append [] (carry ++ piece),List.length_append,List.length_append]
      refine ⟨Nat.add_le_add_left rest.1 _,fun broken => Nat.add_lt_add_left (rest.2 fun ends => broken ?_) _⟩
      exact List.pairwise_cons.mpr ⟨fun _ _ _ => member,ends⟩
    · have rest := ih List.not_mem_nil later
      have whole : newline ∉ carry ++ piece := fun either => (List.mem_append.mp either).elim free member
      rw [if_neg member,matching_free whole,List.nil_append]
      rw [List.nil_append] at rest
      by_cases behind : newline ∈ pieces.flatten
      · have positive := List.length_pos_of_ne_nil (nonempty piece List.mem_cons_self)
        have size := matching_empty_length whole behind
        rw [List.length_append] at size
        exact ⟨by omega,fun _ => by omega⟩
      · have none : newline ∉ carry ++ piece ++ pieces.flatten := fun either => (List.mem_append.mp either).elim whole behind
        rw [matching_free behind] at rest
        rw [matching_free none]
        refine ⟨rest.1,fun broken => absurd ?_ broken⟩
        have free : ∀ b ∈ pieces, newline ∉ b := fun b inside ends => behind (List.mem_flatten.mpr ⟨b,inside,ends⟩)
        exact List.pairwise_cons.mpr ⟨fun b inside ends => absurd ends (free b inside),
          List.pairwise_of_forall_mem_list fun a _ b inside ends => absurd ends (free b inside)⟩

/-- The buffer at the start of `grep`. -/
def opened (buf : Memory) : State := ⟨buf,0,[]⟩

theorem opened_carries (buf : Memory) : Carries (opened buf) [] :=
  ⟨rfl,fun i inside => absurd inside (Nat.not_lt_zero i),List.not_mem_nil,List.not_mem_nil⟩

theorem Delivered.nonempty {pattern : List UInt8} (plain : 0 ∉ pattern) {pieces : List (List UInt8)} (text : ∀ piece ∈ pieces, 0 ∉ piece)
    {s : State} {carry : List UInt8} (carries : Carries s carry) (delivered : Delivered pattern pieces s) :
    ∀ piece ∈ pieces, piece ≠ [] := by
  induction pieces generalizing s carry with
  | nil => exact fun piece member => absurd member List.not_mem_nil
  | cons piece pieces ih =>
    obtain ⟨nonempty,asked,later⟩ := delivered
    obtain ⟨s₁,ran,-,carries⟩ := round_eq plain carries (text piece List.mem_cons_self) nonempty asked
    intro b member
    obtain rfl | member := List.mem_cons.mp member
    · exact nonempty
    · exact ih (fun piece member => text piece (List.mem_cons_of_mem _ member)) carries (later s₁ ran) b member

theorem delivered_of_fits {pattern : List UInt8} (plain : 0 ∉ pattern) {pieces : List (List UInt8)}
    (text : ∀ piece ∈ pieces, 0 ∉ piece ∧ piece ≠ []) {s : State} {carry : List UInt8} (carries : Carries s carry)
    (fits : carry.length + pieces.flatten.length < bufSize) : Delivered pattern pieces s := by
  induction pieces generalizing s carry with
  | nil => exact trivial
  | cons piece pieces ih =>
    obtain ⟨zero,nonempty⟩ := text piece List.mem_cons_self
    have size := carries.size
    rw [List.flatten_cons,List.length_append] at fits
    refine ⟨nonempty,by omega,?_⟩
    intro s' ran
    obtain ⟨s₁,ran',-,next⟩ := round_eq plain carries zero nonempty (by omega)
    rw [ran] at ran'
    obtain rfl := Option.some.inj ran'
    apply ih (fun piece member => text piece (List.mem_cons_of_mem _ member)) next
    have shorter := unfinished_length_le (carry ++ piece)
    rw [List.length_append] at shorter
    split_ifs
    · omega
    · rw [List.length_nil]
      omega

theorem grep_chunking_iff (buf : Memory) (pieces : List (List UInt8)) (text : ∀ piece ∈ pieces, 0 ∉ piece)
    (delivered : ∀ pattern, 0 ∉ pattern → Delivered pattern pieces (opened buf)) :
    (∀ pattern, 0 ∉ pattern → ∃ s, grep pattern pieces (opened buf) = some s ∧ s.out = matching pattern pieces.flatten) ↔
      EveryPieceEnds pieces := by
  have runs : ∀ pattern, 0 ∉ pattern → ∃ s, grep pattern pieces (opened buf) = some s ∧ s.out = written pattern [] pieces :=
    fun pattern plain => grep_eq plain text (opened_carries buf) (delivered pattern plain)
  constructor
  · intro right
    by_contra broken
    obtain ⟨s,ran,out⟩ := runs [] List.not_mem_nil
    obtain ⟨s',ran',out'⟩ := right [] List.not_mem_nil
    rw [ran] at ran'
    obtain rfl := Option.some.inj ran'
    have nonempty := (delivered [] List.not_mem_nil).nonempty List.not_mem_nil text (opened_carries buf)
    have short := (written_empty_length List.not_mem_nil nonempty).2 broken
    rw [List.nil_append,← out,← out'] at short
    exact Nat.lt_irrefl _ short
  · intro ends pattern plain
    obtain ⟨s,ran,out⟩ := runs pattern plain
    exact ⟨s,ran,by rw [out,written_of_ends List.not_mem_nil ends,List.nil_append]⟩

theorem grep_chunking_lines :
    ∃ s, grep [98] [[97,10],[98,10,99]] (opened fun _ => 0) = some s ∧ s.out = matching [98] [97,10,98,10,99] := by
  have delivered : ∀ pattern, 0 ∉ pattern → Delivered pattern [[97,10],[98,10,99]] (opened fun _ => 0) :=
    fun pattern plain => delivered_of_fits plain (by decide) (opened_carries _) (by decide)
  exact (grep_chunking_iff (fun _ => 0) [[97,10],[98,10,99]] (by decide) delivered).mpr (by decide) [98] (by decide)

/-- The line `ab` that comes as `a` and `b`. -/
theorem grep_drops_part : ¬ ∀ (buf : Memory) (pieces : List (List UInt8)), (∀ piece ∈ pieces, 0 ∉ piece) →
    (∀ line ∈ pieces.flatten.splitOn newline, line.length ≤ 1022) →
    (∀ pattern, 0 ∉ pattern → Delivered pattern pieces (opened buf)) →
    ∀ pattern, 0 ∉ pattern → ∃ s, grep pattern pieces (opened buf) = some s ∧ s.out = matching pattern pieces.flatten := by
  intro every
  have delivered : ∀ pattern, 0 ∉ pattern → Delivered pattern [[97],[98,10]] (opened fun _ => 0) :=
    fun pattern plain => delivered_of_fits plain (by decide) (opened_carries _) (by decide)
  obtain ⟨s,ran,out⟩ := every (fun _ => 0) [[97],[98,10]] (by decide) (by decide) delivered [] (by decide)
  obtain ⟨s',ran',out'⟩ := grep_eq List.not_mem_nil (by decide) (opened_carries _) (delivered [] (by decide))
  rw [ran] at ran'
  obtain rfl := Option.some.inj ran'
  have short : (written [] [] [[97],[98,10]]).length < _ := (written_empty_length List.not_mem_nil (by decide)).2 (by decide)
  rw [out] at out'
  rw [← List.nil_append (written _ _ _),← show _ = [] ++ written [] [] _ from out'] at short
  exact Nat.lt_irrefl _ short

end Xv6Ext2.Grep
