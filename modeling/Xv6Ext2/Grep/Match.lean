import Xv6Ext2.Lib.Stored

/-! The matcher of grep.c against the languages of its patterns. -/
namespace Xv6Ext2.Grep
open Lib
open scoped Computability

abbrev Memory := Nat → UInt8

def star : UInt8 := 42

def dot : UInt8 := 46

def dollar : UInt8 := 36

def caret : UInt8 := 94

mutual

/-- `matchhere(re, text)`, with `re` an address of `pat` and `text` one of `txt`, if the calls are no deeper than `fuel`. -/
def matchhere (pat txt : Memory) : Nat → Nat → Nat → Option Bool
  | 0, _, _ => none
  | fuel + 1, re, text =>
    if pat re = 0 then some true
    else if pat (re + 1) = star then matchstar pat txt fuel (pat re) (re + 2) text
    else if pat re = dollar ∧ pat (re + 1) = 0 then some (txt text = 0)
    else if txt text ≠ 0 ∧ (pat re = dot ∨ pat re = txt text) then matchhere pat txt fuel (re + 1) (text + 1)
    else some false

/-- `matchstar(c, re, text)`; a round of its loop counts as a call. -/
def matchstar (pat txt : Memory) : Nat → UInt8 → Nat → Nat → Option Bool
  | 0, _, _, _ => none
  | fuel + 1, c, re, text => do
    if ← matchhere pat txt fuel re text then return true
    else if txt text ≠ 0 ∧ (txt text = c ∨ c = dot) then matchstar pat txt fuel c re (text + 1)
    else return false

end

/-- The loop of `match`. -/
def matchLoop (pat txt : Memory) (depth re : Nat) : Nat → Nat → Option Bool
  | 0, _ => none
  | fuel + 1, text => do
    if ← matchhere pat txt depth re text then return true
    else if txt text ≠ 0 then matchLoop pat txt depth re fuel (text + 1)
    else return false

/-- `match(re, text)` -/
def matchText (pat txt : Memory) (fuel re text : Nat) : Option Bool :=
  if pat re = caret then matchhere pat txt fuel (re + 1) text else matchLoop pat txt fuel re fuel text

inductive Item where
  | one (c : UInt8)
  | many (c : UInt8)
  deriving DecidableEq

structure Pattern where
  items : List Item
  /-- The pattern ends with a dollar. -/
  atEnd : Bool
  deriving DecidableEq

def Pattern.push (i : Item) (p : Pattern) : Pattern := ⟨i :: p.items,p.atEnd⟩

/-- How a pattern is read. A star, dollar or caret anywhere else is a character. -/
def readPattern : List UInt8 → Pattern
  | [] => ⟨[],false⟩
  | [c] => if c = dollar then ⟨[],true⟩ else ⟨[.one c],false⟩
  | c :: d :: re => if d = star then (readPattern re).push (.many c) else (readPattern (d :: re)).push (.one c)

def letter (c : UInt8) : Language UInt8 := {w | ∃ a, w = [a] ∧ (c = dot ∨ a = c)}

def Item.language : Item → Language UInt8
  | .one c => letter c
  | .many c => (letter c)∗

def Pattern.language (p : Pattern) : Language UInt8 := (p.items.map Item.language).prod

def Pattern.Starts (p : Pattern) (text : List UInt8) : Prop :=
  ∃ front back, text = front ++ back ∧ front ∈ p.language ∧ (p.atEnd = true → back = [])

/-- What `match` is for: the text, or any suffix of it if there is no caret, starts with what the pattern matches. -/
def Matches (re text : List UInt8) : Prop :=
  if re.head? = some caret then (readPattern re.tail).Starts text else ∃ suffix, suffix <:+ text ∧ (readPattern re).Starts suffix

section

variable {p : Pattern} {c : UInt8} {text : List UInt8}

theorem starts_nothing (text : List UInt8) : Pattern.Starts ⟨[],false⟩ text :=
  ⟨[],text,rfl,rfl,fun impossible => absurd impossible (by decide)⟩

theorem starts_end : Pattern.Starts ⟨[],true⟩ text ↔ text = [] := by
  constructor
  · rintro ⟨front,back,rfl,empty,ends⟩
    have none : front = [] := empty
    rw [none,ends rfl]
    rfl
  · rintro rfl
    exact ⟨[],[],rfl,rfl,fun _ => rfl⟩

theorem starts_letter {language : Language UInt8} {atEnd : Bool} :
    (∃ front back, text = front ++ back ∧ front ∈ letter c * language ∧ (atEnd = true → back = [])) ↔
    ∃ a rest, text = a :: rest ∧ (c = dot ∨ a = c) ∧
      ∃ front back, rest = front ++ back ∧ front ∈ language ∧ (atEnd = true → back = []) := by
  constructor
  · rintro ⟨front,back,rfl,matched,ends⟩
    obtain ⟨_,⟨a,rfl,fits⟩,front,inside,rfl⟩ := Language.mem_mul.mp matched
    exact ⟨a,front ++ back,rfl,fits,front,back,rfl,inside,ends⟩
  · rintro ⟨a,_,rfl,fits,front,back,rfl,inside,ends⟩
    exact ⟨a :: front,back,rfl,Language.mem_mul.mpr ⟨[a],⟨a,rfl,fits⟩,front,inside,rfl⟩,ends⟩

theorem starts_one : (p.push (.one c)).Starts text ↔ ∃ a rest, text = a :: rest ∧ (c = dot ∨ a = c) ∧ p.Starts rest := by
  have split : (p.push (.one c)).language = letter c * p.language := by simp [Pattern.push,Pattern.language,Item.language]
  rw [Pattern.Starts,split]
  exact starts_letter

theorem starts_many : (p.push (.many c)).Starts text ↔
    p.Starts text ∨ ∃ a rest, text = a :: rest ∧ (c = dot ∨ a = c) ∧ (p.push (.many c)).Starts rest := by
  have split : (p.push (.many c)).language = p.language + letter c * (p.push (.many c)).language := by
    have unfolded : (p.push (.many c)).language = (letter c)∗ * p.language := by
      simp [Pattern.push,Pattern.language,Item.language]
    rw [unfolded,← mul_assoc]
    nth_rewrite 1 [← Language.one_add_self_mul_kstar_eq_kstar]
    rw [add_mul,one_mul]
  constructor
  · rintro ⟨front,back,whole,matched,ends⟩
    rw [split] at matched
    obtain now | later := Language.mem_add _ _ _ |>.mp matched
    · exact .inl ⟨front,back,whole,now,ends⟩
    · exact .inr (starts_letter.mp ⟨front,back,whole,later,ends⟩)
  · rintro (⟨front,back,whole,matched,ends⟩ | more)
    · refine ⟨front,back,whole,?_,ends⟩
      rw [split]
      exact Language.mem_add _ _ _ |>.mpr (.inl matched)
    · obtain ⟨front,back,whole,matched,ends⟩ := starts_letter.mpr more
      refine ⟨front,back,whole,?_,ends⟩
      rw [split]
      exact Language.mem_add _ _ _ |>.mpr (.inr matched)

theorem starts_one_nil : ¬ (p.push (.one c)).Starts [] := by
  rw [starts_one]
  rintro ⟨a,rest,impossible,-⟩
  contradiction

theorem starts_one_cons {a : UInt8} : (p.push (.one c)).Starts (a :: text) ↔ (c = dot ∨ a = c) ∧ p.Starts text := by
  rw [starts_one]
  constructor
  · rintro ⟨_,_,whole,starts⟩
    obtain ⟨rfl,rfl⟩ := List.cons.inj whole
    exact starts
  · intro starts
    exact ⟨a,text,rfl,starts⟩

theorem starts_many_nil : (p.push (.many c)).Starts [] ↔ p.Starts [] := by
  rw [starts_many]
  constructor
  · rintro (starts | ⟨a,rest,impossible,-⟩)
    · exact starts
    · contradiction
  · exact .inl

theorem starts_many_cons {a : UInt8} :
    (p.push (.many c)).Starts (a :: text) ↔ p.Starts (a :: text) ∨ (c = dot ∨ a = c) ∧ (p.push (.many c)).Starts text := by
  rw [starts_many]
  constructor
  · rintro (starts | ⟨_,_,whole,more⟩)
    · exact .inl starts
    · obtain ⟨rfl,rfl⟩ := List.cons.inj whole
      exact .inr more
  · rintro (starts | more)
    · exact .inl starts
    · exact .inr ⟨a,text,rfl,more⟩

end

def Decides (r : Option Bool) (P : Prop) : Prop := ∃ b, r = some b ∧ (b = true ↔ P)

variable {pat txt : Memory}

structure Right (pat txt : Memory) (fuel : Nat) : Prop where
  here : ∀ {r t : List UInt8} {re text : Nat}, Stored pat re r → Stored txt text t → r.length + t.length < fuel →
    Decides (matchhere pat txt fuel re text) ((readPattern r).Starts t)
  many : ∀ {r t : List UInt8} {c : UInt8} {re text : Nat}, Stored pat re r → Stored txt text t → r.length + t.length + 1 < fuel →
    Decides (matchstar pat txt fuel c re text) (((readPattern r).push (.many c)).Starts t)

theorem matchstar_right {fuel : Nat} (right : Right pat txt fuel) {r t : List UInt8} {c : UInt8} {re text : Nat}
    (pattern : Stored pat re r) (string : Stored txt text t) (enough : r.length + t.length + 1 < fuel + 1) :
    Decides (matchstar pat txt (fuel + 1) c re text) (((readPattern r).push (.many c)).Starts t) := by
  obtain ⟨b,ran,meaning⟩ := right.here pattern string (by omega)
  rw [matchstar,ran,Option.bind_eq_bind,Option.bind_some]
  cases b with
  | true => exact ⟨true,rfl,iff_of_true rfl (starts_many.mpr (.inl (meaning.mp rfl)))⟩
  | false =>
    have now : ¬ (readPattern r).Starts t := fun starts => absurd (meaning.mpr starts) (by decide)
    rw [if_neg (by decide)]
    cases t with
    | nil =>
      rw [if_neg fun both => both.1 string.at_end,starts_many_nil]
      exact ⟨false,rfl,iff_of_false (by decide) now⟩
    | cons a t =>
      rw [string.head,starts_many_cons]
      by_cases fits : a = c ∨ c = dot
      · rw [List.length_cons] at enough
        obtain ⟨b,ran,meaning⟩ := right.many (c := c) pattern string.tail (by omega)
        rw [if_pos ⟨string.head_ne_zero,fits⟩]
        exact ⟨b,ran,meaning.trans ⟨fun more => .inr ⟨fits.symm,more⟩,fun either => (either.resolve_left now).2⟩⟩
      · rw [if_neg fun both => fits both.2]
        exact ⟨false,rfl,iff_of_false (by decide) (not_or_intro now fun more => fits more.1.symm)⟩

theorem matchone_right {fuel : Nat} (right : Right pat txt fuel) {r t : List UInt8} {c : UInt8} {re text : Nat}
    (pattern : Stored pat re (c :: r)) (string : Stored txt text t) (enough : r.length + t.length < fuel + 1) :
    Decides (if txt text ≠ 0 ∧ (c = dot ∨ c = txt text) then matchhere pat txt fuel (re + 1) (text + 1) else some false)
      (((readPattern r).push (.one c)).Starts t) := by
  cases t with
  | nil =>
    rw [if_neg fun both => both.1 string.at_end]
    exact ⟨false,rfl,iff_of_false (by decide) starts_one_nil⟩
  | cons a t =>
    rw [string.head,starts_one_cons]
    by_cases fits : c = dot ∨ c = a
    · rw [List.length_cons] at enough
      obtain ⟨b,ran,meaning⟩ := right.here pattern.tail string.tail (by omega)
      rw [if_pos ⟨string.head_ne_zero,fits⟩]
      exact ⟨b,ran,meaning.trans ⟨fun starts => ⟨fits.imp_right Eq.symm,starts⟩,And.right⟩⟩
    · rw [if_neg fun both => fits both.2]
      exact ⟨false,rfl,iff_of_false (by decide) fun both => fits (both.1.imp_right Eq.symm)⟩

theorem matchhere_right {fuel : Nat} (right : Right pat txt fuel) {r t : List UInt8} {re text : Nat} (pattern : Stored pat re r)
    (string : Stored txt text t) (enough : r.length + t.length < fuel + 1) :
    Decides (matchhere pat txt (fuel + 1) re text) ((readPattern r).Starts t) := by
  rw [matchhere]
  cases r with
  | nil =>
    rw [if_pos pattern.at_end]
    exact ⟨true,rfl,iff_of_true rfl (starts_nothing t)⟩
  | cons c r =>
    have one := matchone_right right pattern string (by rw [List.length_cons] at enough; omega)
    rw [pattern.head,if_neg pattern.head_ne_zero]
    cases r with
    | nil =>
      rw [pattern.tail.at_end,if_neg (by decide),readPattern]
      by_cases last : c = dollar
      · rw [if_pos ⟨last,rfl⟩,if_pos last,starts_end]
        refine ⟨_,rfl,?_⟩
        cases t with
        | nil => simp [string.at_end]
        | cons a t => simp [string.head,string.head_ne_zero]
      · rw [if_neg fun both => last both.1,if_neg last]
        exact one
    | cons d r =>
      rw [pattern.tail.head,readPattern]
      by_cases starred : d = star
      · rw [if_pos starred,if_pos starred]
        simp only [List.length_cons] at enough
        exact right.many pattern.tail.tail string (by omega)
      · rw [if_neg starred,if_neg fun both => pattern.tail.head_ne_zero both.2,if_neg starred]
        exact one

theorem right_all (fuel : Nat) : Right pat txt fuel := by
  induction fuel with
  | zero => exact ⟨fun _ _ enough => absurd enough (Nat.not_lt_zero _),fun _ _ enough => absurd enough (Nat.not_lt_zero _)⟩
  | succ fuel right => exact ⟨matchhere_right right,matchstar_right right⟩

theorem matchLoop_right {r t : List UInt8} {depth fuel re text : Nat} (pattern : Stored pat re r) (string : Stored txt text t)
    (deep : r.length + t.length < depth) (enough : t.length < fuel) :
    Decides (matchLoop pat txt depth re fuel text) (∃ suffix, suffix <:+ t ∧ (readPattern r).Starts suffix) := by
  induction fuel generalizing t text with
  | zero => exact absurd enough (Nat.not_lt_zero _)
  | succ fuel ih =>
    obtain ⟨b,ran,meaning⟩ := (right_all depth).here pattern string deep
    rw [matchLoop,ran,Option.bind_eq_bind,Option.bind_some]
    cases b with
    | true => exact ⟨true,rfl,iff_of_true rfl ⟨t,List.suffix_refl t,meaning.mp rfl⟩⟩
    | false =>
      have now : ¬ (readPattern r).Starts t := fun starts => absurd (meaning.mpr starts) (by decide)
      rw [if_neg (by decide)]
      cases t with
      | nil =>
        rw [if_neg fun nonzero => nonzero string.at_end]
        refine ⟨false,rfl,iff_of_false (by decide) ?_⟩
        rintro ⟨suffix,inside,starts⟩
        rw [List.suffix_nil.mp inside] at starts
        exact now starts
      | cons a t =>
        rw [List.length_cons] at deep enough
        rw [string.head,if_pos string.head_ne_zero]
        obtain ⟨b,ran,meaning⟩ := ih string.tail (by omega) (by omega)
        refine ⟨b,ran,meaning.trans ⟨?_,?_⟩⟩
        · rintro ⟨suffix,inside,starts⟩
          exact ⟨suffix,inside.trans (List.suffix_cons a t),starts⟩
        · rintro ⟨suffix,inside,starts⟩
          obtain rfl | inside := List.suffix_cons_iff.mp inside
          · exact absurd starts now
          · exact ⟨suffix,inside,starts⟩

theorem matchText_decides {r t : List UInt8} {re text : Nat} (pattern : Stored pat re r) (string : Stored txt text t) (fuel : Nat)
    (enough : r.length + t.length < fuel) : Decides (matchText pat txt fuel re text) (Matches r t) := by
  rw [matchText,Matches]
  cases r with
  | nil =>
    rw [if_neg (by rw [pattern.at_end]; decide),if_neg (by simp)]
    exact matchLoop_right pattern string enough (by omega)
  | cons c r =>
    rw [pattern.head,List.head?_cons]
    by_cases anchored : c = caret
    · rw [if_pos anchored,if_pos (congrArg some anchored),List.tail_cons]
      rw [List.length_cons] at enough
      exact (right_all fuel).here pattern.tail string (by omega)
    · rw [if_neg anchored,if_neg fun same => anchored (Option.some.inj same)]
      exact matchLoop_right pattern string enough (by omega)

/-- `match` returns, and gives 1 exactly on what the pattern matches. -/
theorem matchText_iff {r t : List UInt8} {re text : Nat} (pattern : Stored pat re r) (string : Stored txt text t) {fuel : Nat}
    (enough : r.length + t.length < fuel) :
    (matchText pat txt fuel re text = some true ↔ Matches r t) ∧ (matchText pat txt fuel re text = some false ↔ ¬ Matches r t) := by
  obtain ⟨b,ran,meaning⟩ := matchText_decides pattern string fuel enough
  rw [ran,← meaning,Option.some_inj,Option.some_inj]
  exact ⟨Iff.rfl,Bool.not_eq_true b ▸ Iff.rfl⟩

/-- `match("a*b$", "caab")` -/
theorem matchText_iff_caab : matchText (cstring [97,42,98,36]) (cstring [99,97,97,98]) 9 0 0 = some true ↔
    Matches [97,42,98,36] [99,97,97,98] := by
  have pattern : Stored (cstring [97,42,98,36]) 0 [97,42,98,36] := ⟨by decide,fun i _ => by rw [Nat.zero_add]⟩
  have string : Stored (cstring [99,97,97,98]) 0 [99,97,97,98] := ⟨by decide,fun i _ => by rw [Nat.zero_add]⟩
  exact (matchText_iff pattern string (by decide)).1

end Xv6Ext2.Grep
