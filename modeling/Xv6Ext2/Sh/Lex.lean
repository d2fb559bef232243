import Xv6Ext2.Sh.Parse

/-! Tokens. A line is written with tokens when it is their spellings with white space around them, where a word and `>` end only
where they cannot go on. `peek` looks at the first token that is left and `gettoken` takes it. -/
namespace Xv6Ext2.Sh
open Lib

inductive Token where
  | bar
  | lparen
  | rparen
  | semi
  | amp
  | less
  | greater
  | append
  | word (w : List UInt8)
  deriving DecidableEq

def Token.spelling : Token → List UInt8
  | .bar => [124]
  | .lparen => [40]
  | .rparen => [41]
  | .semi => [59]
  | .amp => [38]
  | .less => [60]
  | .greater => [62]
  | .append => [62,62]
  | .word w => w

/-- The symbol that the token begins with; a word has none. -/
def Token.symbol : Token → UInt8
  | .word _ => 0
  | t => t.spelling.headD 0

/-- What `gettoken` returns for the token. -/
def Token.ret : Token → UInt8
  | .append => 43
  | .word _ => 97
  | t => t.symbol

/-- The token ends before `rest`. -/
def Token.Maximal : Token → List UInt8 → Prop
  | .greater, rest => rest.head? ≠ some 62
  | .word w, rest => w ≠ [] ∧ (∀ c ∈ w, isWord c) ∧ ∀ c ∈ rest.head?, ¬ isWord c
  | _, _ => True

inductive Lexes : List UInt8 → List Token → Prop where
  | done : Lexes [] []
  | space {c : UInt8} {text : List UInt8} {ts : List Token} (space : c ∈ whitespace) (rest : Lexes text ts) : Lexes (c :: text) ts
  | token {t : Token} {rest : List UInt8} {ts : List Token} (maximal : t.Maximal rest) (lexes : Lexes rest ts) :
      Lexes (t.spelling ++ rest) (t :: ts)

def chars (mem : Buffer) (a : Span) : List UInt8 := (List.range (a.eq - a.q)).map fun i => mem (a.q + i)

structure Cut (mem : Buffer) (es : Nat) (a : Span) : Prop where
  le : a.q ≤ a.eq
  bound : a.eq ≤ es
  inside : ∀ i, a.q ≤ i → i < a.eq → isWord (mem i)
  ends : a.eq = es ∨ ¬ isWord (mem a.eq)

def Reads (mem : Buffer) (es s : Nat) (ts : List Token) : Prop :=
  ∃ text, Stored mem s text ∧ s + text.length = es ∧ Lexes text ts

def starts (toks : List UInt8) : List Token → Bool
  | [] => false
  | t :: _ => strchr toks t.symbol

section

variable {mem : Buffer} {es s q : Nat} {text rest : List UInt8} {t : Token} {ts : List Token}

theorem space_found {c : UInt8} (space : c ∈ whitespace) : strchr whitespace c := decide_eq_true space

theorem word_not_space {c : UInt8} (word : isWord c) : ¬ strchr whitespace c := by
  rw [isWord,Bool.and_eq_true,Bool.not_eq_true'] at word
  rw [word.1]
  exact Bool.false_ne_true

theorem word_not_symbol {c : UInt8} (word : isWord c) : c ∉ symbols := by
  rw [isWord,Bool.and_eq_true,Bool.not_eq_true',Bool.not_eq_true'] at word
  exact of_decide_eq_false word.2

theorem Token.Maximal.first (maximal : t.Maximal rest) : ∃ c cs, t.spelling = c :: cs ∧ ¬ strchr whitespace c := by
  cases t with
  | word w =>
    obtain ⟨nonempty,word,-⟩ := maximal
    obtain ⟨c,cs,rfl⟩ := List.exists_cons_of_ne_nil nonempty
    exact ⟨c,cs,rfl,word_not_space (word c List.mem_cons_self)⟩
  | _ => exact ⟨_,_,rfl,by decide⟩

theorem Lexes.length_le (lexes : Lexes text ts) : ts.length ≤ text.length := by
  induction lexes with
  | done => exact Nat.le_refl 0
  | space _ _ ih => exact ih.trans (Nat.le_succ _)
  | token maximal _ ih =>
    obtain ⟨c,cs,spelled,-⟩ := maximal.first
    rw [spelled,List.length_append,List.length_cons,List.length_cons]
    omega

theorem Lexes.skip (lexes : Lexes text ts) : Lexes (text.dropWhile (strchr whitespace)) ts := by
  induction lexes with
  | done => exact .done
  | space space _ ih =>
    rw [List.dropWhile_cons,if_pos (space_found space)]
    exact ih
  | token maximal lexes _ =>
    obtain ⟨c,cs,spelled,visible⟩ := maximal.first
    have stays := Lexes.token maximal lexes
    rw [spelled,List.cons_append] at stays ⊢
    rwa [List.dropWhile_cons,if_neg visible]

theorem Lexes.split (lexes : Lexes text ts) : text.dropWhile (strchr whitespace) = [] ∧ ts = [] ∨
    ∃ t rest ts', text.dropWhile (strchr whitespace) = t.spelling ++ rest ∧ ts = t :: ts' ∧ t.Maximal rest ∧ Lexes rest ts' := by
  induction lexes with
  | done => exact .inl ⟨rfl,rfl⟩
  | space space _ ih =>
    rw [List.dropWhile_cons,if_pos (space_found space)]
    exact ih
  | @token t rest ts' maximal lexes _ =>
    obtain ⟨c,cs,spelled,visible⟩ := maximal.first
    refine .inr ⟨t,rest,ts',?_,rfl,maximal,lexes⟩
    rw [spelled,List.cons_append,List.dropWhile_cons,if_neg visible]

theorem scan_eq {go : UInt8 → Bool} (stored : Stored mem s text) : scan mem go text.length s = s + (text.takeWhile go).length := by
  induction text generalizing s with
  | nil => rfl
  | cons c text ih =>
    rw [List.length_cons,scan,stored.head,List.takeWhile_cons]
    cases go c with
    | false => rfl
    | true =>
      rw [if_pos rfl,if_pos rfl,ih stored.tail,List.length_cons]
      omega

theorem skipSpace_eq (stored : Stored mem s text) (whole : s + text.length = es) :
    Stored mem (skipSpace mem es s) (text.dropWhile (strchr whitespace)) ∧
      skipSpace mem es s + (text.dropWhile (strchr whitespace)).length = es := by
  have length : es - s = text.length := by omega
  have parts := congrArg List.length (List.takeWhile_append_dropWhile (p := strchr whitespace) (l := text))
  rw [List.length_append] at parts
  rw [skipSpace,length,scan_eq stored]
  exact ⟨stored.advanced _,by omega⟩

theorem reads_skipSpace (stored : Stored mem s text) (whole : s + text.length = es) (lexes : Lexes text ts) :
    Reads mem es (skipSpace mem es s) ts :=
  ⟨_,(skipSpace_eq stored whole).1,(skipSpace_eq stored whole).2,lexes.skip⟩

theorem takeWhile_word {w : List UInt8} (word : ∀ c ∈ w, isWord c) (stops : ∀ c ∈ rest.head?, ¬ isWord c) :
    (w ++ rest).takeWhile isWord = w := by
  rw [List.takeWhile_append_of_pos word]
  cases rest with
  | nil => rw [List.takeWhile_nil,List.append_nil]
  | cons c rest => rw [List.takeWhile_cons,if_neg (stops c rfl),List.append_nil]

theorem lexeme_eq (stored : Stored mem q (t.spelling ++ rest)) (whole : q + (t.spelling ++ rest).length = es)
    (maximal : t.Maximal rest) : lexeme mem es q = (t.ret,q + t.spelling.length) := by
  cases t with
  | greater =>
    have first := stored.head
    have second : mem (q + 1) ≠ 62 := by
      cases rest with
      | nil =>
        rw [stored.tail.at_end]
        decide
      | cons c rest =>
        rw [stored.tail.head]
        exact fun same => maximal (congrArg some same)
    rw [lexeme,first,if_neg (by decide),if_neg (by decide),if_pos rfl,if_neg second]
    rfl
  | append =>
    have first := stored.head
    have second := stored.tail.head
    rw [lexeme,first,second,if_neg (by decide),if_neg (by decide),if_pos rfl,if_pos rfl]
    rfl
  | word w =>
    obtain ⟨nonempty,word,stops⟩ := maximal
    have scanned : scan mem isWord (w ++ rest).length q = q + ((w ++ rest).takeWhile isWord).length := scan_eq stored
    rw [takeWhile_word word stops] at scanned
    obtain ⟨c,cs,rfl⟩ := List.exists_cons_of_ne_nil nonempty
    have first := stored.head
    have plain := word_not_symbol (word c List.mem_cons_self)
    simp only [symbols,List.mem_cons,List.not_mem_nil,or_false,not_or] at plain
    have length : es - q = (c :: cs ++ rest).length := by
      rw [← whole,Nat.add_sub_cancel_left]
      rfl
    rw [lexeme,first,if_neg stored.head_ne_zero,if_neg (by simp [plain]),if_neg plain.2.2.1,length,scanned]
    rfl
  | _ =>
    have first := stored.head
    rw [lexeme,first,if_neg (by decide),if_pos (by decide)]
    rfl

theorem chars_eq {w : List UInt8} (stored : Stored mem q (w ++ rest)) : chars mem ⟨q,q + w.length⟩ = w := by
  apply List.ext_getElem
  · simp [chars]
  · intro i bound inside
    have byte := stored.bytes i (by rw [List.length_append]; omega)
    rw [cstring_append_left _ _ inside,cstring,List.getD_eq_getElem _ _ inside] at byte
    simpa [chars] using byte

theorem cut_of_stored {w : List UInt8} (stored : Stored mem q (w ++ rest)) (whole : q + (w ++ rest).length = es)
    (maximal : (Token.word w).Maximal rest) : Cut mem es ⟨q,q + w.length⟩ := by
  obtain ⟨-,word,stops⟩ := maximal
  rw [List.length_append] at whole
  refine ⟨Nat.le_add_right _ _,by simp only []; omega,?_,?_⟩
  · intro i after before
    have inside : i - q < w.length := by
      simp only [] at before after
      omega
    have byte := stored.bytes (i - q) (by rw [List.length_append]; omega)
    rw [Nat.add_sub_cancel' after,cstring_append_left _ _ inside,cstring,List.getD_eq_getElem _ _ inside] at byte
    rw [byte]
    exact word _ (List.getElem_mem inside)
  · cases rest with
    | nil => exact .inl (by simpa using whole)
    | cons c rest =>
      refine .inr ?_
      have byte := stored.rest.head
      simp only [byte]
      exact stops c rfl

theorem gettoken_eq (reads : Reads mem es s (t :: ts)) : ∃ q s', gettoken mem es s = .ok ((t.ret,⟨q,q + t.spelling.length⟩),s') ∧
    Reads mem es s' ts ∧ ∀ w, t = .word w → chars mem ⟨q,q + w.length⟩ = w ∧ Cut mem es ⟨q,q + w.length⟩ := by
  obtain ⟨text,stored,whole,lexes⟩ := reads
  obtain ⟨stored',whole'⟩ := skipSpace_eq stored whole
  obtain ⟨-,empty⟩ | ⟨t',rest,ts',spelled,same,maximal,lexes'⟩ := lexes.split
  · cases empty
  · obtain ⟨rfl,rfl⟩ := List.cons.inj same
    rw [spelled] at stored' whole'
    refine ⟨skipSpace mem es s,_,?_,reads_skipSpace stored'.rest ?_ lexes',?_⟩
    · simp only [gettoken,lexeme_eq stored' whole' maximal]
    · rw [List.length_append] at whole'
      omega
    · rintro w rfl
      exact ⟨chars_eq stored',cut_of_stored stored' whole' maximal⟩

theorem gettoken_end (reads : Reads mem es s []) : ∃ a s', gettoken mem es s = .ok ((0,a),s') ∧ Reads mem es s' [] := by
  obtain ⟨text,stored,whole,lexes⟩ := reads
  obtain ⟨stored',whole'⟩ := skipSpace_eq stored whole
  obtain ⟨ended,-⟩ | ⟨t',rest,ts',-,same,-⟩ := lexes.split
  · rw [ended] at stored' whole'
    refine ⟨⟨skipSpace mem es s,skipSpace mem es s⟩,_,?_,reads_skipSpace stored' whole' .done⟩
    simp only [gettoken,lexeme,stored'.at_end,if_true]
  · cases same

theorem peek_eq (toks : List UInt8) (sub : toks ⊆ symbols) (reads : Reads mem es s ts) :
    ∃ s', peek mem es toks s = .ok (starts toks ts,s') ∧ Reads mem es s' ts := by
  obtain ⟨text,stored,whole,lexes⟩ := reads
  obtain ⟨stored',-⟩ := skipSpace_eq stored whole
  refine ⟨_,?_,reads_skipSpace stored whole lexes⟩
  obtain ⟨ended,rfl⟩ | ⟨t,rest,ts',spelled,rfl,maximal,-⟩ := lexes.split
  · rw [ended] at stored'
    simp [peek,stored'.at_end,starts]
  · rw [spelled] at stored'
    have absent : (0 : UInt8) ∉ toks := fun member => absurd (sub member) (by decide)
    cases t with
    | word w =>
      obtain ⟨nonempty,word,-⟩ := maximal
      obtain ⟨c,cs,rfl⟩ := List.exists_cons_of_ne_nil nonempty
      have other : c ∉ toks := fun member => word_not_symbol (word c List.mem_cons_self) (sub member)
      have first := stored'.head
      simp [peek,first,starts,strchr,Token.symbol,other,absent]
    | _ =>
      have first := stored'.head
      simp only [peek,first,starts]
      rfl

theorem lexes_exists (text : List UInt8) : ∃ ts, Lexes text ts := by
  induction length : text.length using Nat.strong_induction_on generalizing text with
  | h n ih =>
    subst length
    cases text with
    | nil => exact ⟨[],.done⟩
    | cons c text =>
      have symbol (t : Token) (rest : List UInt8) (spelled : c :: text = t.spelling ++ rest) (maximal : t.Maximal rest) :
          ∃ ts, Lexes (c :: text) ts := by
        obtain ⟨d,ds,first,-⟩ := maximal.first
        have length := congrArg List.length spelled
        simp only [first,List.length_append,List.length_cons] at length
        obtain ⟨ts,lexes⟩ := ih rest.length (by rw [List.length_cons]; omega) rest rfl
        rw [spelled]
        exact ⟨t :: ts,.token maximal lexes⟩
      by_cases space : c ∈ whitespace
      · obtain ⟨ts,lexes⟩ := ih text.length (Nat.lt_succ_self _) text rfl
        exact ⟨ts,.space space lexes⟩
      · by_cases mark : c ∈ symbols
        · simp only [symbols,List.mem_cons,List.not_mem_nil,or_false] at mark
          obtain rfl | rfl | rfl | rfl | rfl | rfl | rfl := mark
          · exact symbol .less text rfl True.intro
          · exact symbol .bar text rfl True.intro
          · cases text with
            | nil => exact symbol .greater [] rfl (Option.some_ne_none _).symm
            | cons d text =>
              by_cases again : d = 62
              · subst again
                exact symbol .append text rfl True.intro
              · exact symbol .greater (d :: text) rfl fun same => again (Option.some.inj same)
          · exact symbol .amp text rfl True.intro
          · exact symbol .semi text rfl True.intro
          · exact symbol .lparen text rfl True.intro
          · exact symbol .rparen text rfl True.intro
        · have word : isWord c := by simp [isWord,strchr,space,mark]
          refine symbol (.word ((c :: text).takeWhile isWord)) ((c :: text).dropWhile isWord) List.takeWhile_append_dropWhile.symm
            ⟨?_,fun d member => List.mem_takeWhile_imp member,?_⟩
          · rw [List.takeWhile_cons,if_pos word]
            exact List.cons_ne_nil _ _
          · intro d head
            have stops := List.head?_dropWhile_not isWord (c :: text)
            rw [Option.mem_def] at head
            rw [head] at stops
            simpa using stops

end

end Xv6Ext2.Sh
