import Xv6Ext2.Sh.Lex

/-! The grammar of the shell, and what the parser does by it: it comes to an end on every line, and a command that it returns is
derived from the tokens that it has taken. -/
namespace Xv6Ext2.Sh
open Lib

section

variable {α β : Type}

def Redir.map (f : α → β) (r : Redir α) : Redir β := ⟨f r.file,r.mode,r.fd⟩

def Cmd.map (f : α → β) : Cmd α → Cmd β
  | .exec argv => .exec (argv.map f)
  | .redir cmd r => .redir (cmd.map f) (r.map f)
  | .pipe left right => .pipe (left.map f) (right.map f)
  | .list left right => .list (left.map f) (right.map f)
  | .back cmd => .back (cmd.map f)

/-- The arguments and the file names. -/
def Cmd.words : Cmd α → List α
  | .exec argv => argv
  | .redir cmd r => cmd.words ++ [r.file]
  | .pipe left right => left.words ++ right.words
  | .list left right => left.words ++ right.words
  | .back cmd => cmd.words

theorem wrap_map (f : α → β) (cmd : Cmd α) (rs : List (Redir α)) : (wrap cmd rs).map f = wrap (cmd.map f) (rs.map (Redir.map f)) := by
  induction rs generalizing cmd with
  | nil => rfl
  | cons r rs ih => exact ih (.redir cmd r)

theorem wrap_words (cmd : Cmd α) (rs : List (Redir α)) : (wrap cmd rs).words = cmd.words ++ rs.map Redir.file := by
  induction rs generalizing cmd with
  | nil => exact (List.append_nil _).symm
  | cons r rs ih =>
    refine (ih (.redir cmd r)).trans ?_
    rw [Cmd.words,List.append_assoc]
    rfl

theorem backs_map (f : α → β) (n : Nat) (cmd : Cmd α) : (Cmd.back^[n] cmd).map f = Cmd.back^[n] (cmd.map f) := by
  induction n generalizing cmd with
  | zero => rfl
  | succ n ih => exact ih (.back cmd)

theorem backs_words (n : Nat) (cmd : Cmd α) : (Cmd.back^[n] cmd).words = cmd.words := by
  induction n generalizing cmd with
  | zero => rfl
  | succ n ih => exact ih (.back cmd)

end

def Token.redirect (w : List UInt8) : Token → Option (Redir (List UInt8))
  | .less => some ⟨w,0,0⟩
  | .greater => some ⟨w,0x201,1⟩
  | .append => some ⟨w,0x201,1⟩
  | _ => none

inductive Redirs : List Token → List (Redir (List UInt8)) → Prop where
  | nil : Redirs [] []
  | cons {t : Token} {w : List UInt8} {r : Redir (List UInt8)} {ts : List Token} {rs : List (Redir (List UInt8))}
      (first : t.redirect w = some r) (rest : Redirs ts rs) : Redirs (t :: .word w :: ts) (r :: rs)

inductive Words : List Token → List (List UInt8) → List (Redir (List UInt8)) → Prop where
  | nil : Words [] [] []
  | cons {w : List UInt8} {us ts : List Token} {argv : List (List UInt8)} {rs more : List (Redir (List UInt8))}
      (redirs : Redirs us rs) (rest : Words ts argv more) : Words (.word w :: us ++ ts) (w :: argv) (rs ++ more)

inductive Nonterminal where
  | line
  | pipe
  | exec
  | block

inductive Derives : Nonterminal → List Token → Cmd (List UInt8) → Prop where
  | line {n : Nat} {ts : List Token} {c : Cmd (List UInt8)} (first : Derives .pipe ts c) :
      Derives .line (ts ++ List.replicate n .amp) (Cmd.back^[n] c)
  | list {n : Nat} {ts us : List Token} {c d : Cmd (List UInt8)} (first : Derives .pipe ts c) (rest : Derives .line us d) :
      Derives .line (ts ++ List.replicate n .amp ++ .semi :: us) (.list (Cmd.back^[n] c) d)
  | single {ts : List Token} {c : Cmd (List UInt8)} (first : Derives .exec ts c) : Derives .pipe ts c
  | pipe {ts us : List Token} {c d : Cmd (List UInt8)} (first : Derives .exec ts c) (rest : Derives .pipe us d) :
      Derives .pipe (ts ++ .bar :: us) (.pipe c d)
  | grouped {ts : List Token} {c : Cmd (List UInt8)} (block : Derives .block ts c) : Derives .exec ts c
  | block {ts us : List Token} {c : Cmd (List UInt8)} {rs : List (Redir (List UInt8))} (line : Derives .line ts c)
      (redirs : Redirs us rs) : Derives .block (.lparen :: ts ++ .rparen :: us) (wrap c rs)
  | simple {us ts : List Token} {argv : List (List UInt8)} {rs more : List (Redir (List UInt8))} (redirs : Redirs us rs)
      (words : Words ts argv more) (few : argv.length < maxArgs) : Derives .exec (us ++ ts) (wrap (.exec argv) (rs ++ more))

def Panics (e : Stop) : Prop := e ≠ .diverges

section

variable {mem : Buffer} {es s : Nat} {ts : List Token}

theorem Reads.length_le (reads : Reads mem es s ts) : ts.length ≤ es := by
  obtain ⟨text,-,whole,lexes⟩ := reads
  have bound := lexes.length_le
  omega

theorem starts_true {toks : List UInt8} (hit : starts toks ts = true) : ∃ t ts', ts = t :: ts' ∧ t.symbol ∈ toks := by
  cases ts with
  | nil => cases hit
  | cons t ts => exact ⟨t,ts,rfl,of_decide_eq_true hit⟩

theorem ret_word {t : Token} (word : t.ret = 97) : ∃ w, t = .word w := by
  cases t with
  | word w => exact ⟨w,rfl⟩
  | _ => exact absurd word (by decide)

theorem ret_ne_zero (t : Token) : t.ret ≠ 0 := by
  cases t with
  | word w => exact (by decide : (97 : UInt8) ≠ 0)
  | _ => decide

theorem redircmd_eq {t : Token} (symbol : t.symbol ∈ [60,62]) (w : List UInt8) (a : Span) (named : chars mem a = w) :
    ∃ r r', t.redirect w = some r ∧ redircmd t.ret a = [r'] ∧ r'.map (chars mem) = r ∧ r'.file = a := by
  subst named
  cases t with
  | less => exact ⟨_,_,rfl,rfl,rfl,rfl⟩
  | greater => exact ⟨_,_,rfl,rfl,rfl,rfl⟩
  | append => exact ⟨_,_,rfl,rfl,rfl,rfl⟩
  | _ => exact absurd symbol (by simp [Token.symbol,Token.spelling])

theorem parseredirs_meets (fuel : Nat) (reads : Reads mem es s ts) (enough : ts.length < fuel) :
    Meets (parseredirs mem es fuel) s (fun rs s' => ∃ used rest, ts = used ++ rest ∧ Reads mem es s' rest ∧
      Redirs used (rs.map (Redir.map (chars mem))) ∧ ∀ r ∈ rs, Cut mem es r.file) Panics := by
  induction fuel generalizing s ts with
  | zero => omega
  | succ fuel ih =>
    obtain ⟨s₁,peeked,reads₁⟩ := peek_eq [60,62] (by decide) reads
    rw [parseredirs]
    refine .step peeked ?_
    cases hit : starts [60,62] ts with
    | false => exact .pure_intro ⟨[],ts,rfl,reads₁,.nil,List.forall_mem_nil _⟩
    | true =>
      obtain ⟨t,ts,rfl,symbol⟩ := starts_true hit
      obtain ⟨q,s₂,taken,reads₂,-⟩ := gettoken_eq reads₁
      refine .step taken ?_
      cases ts with
      | nil =>
        obtain ⟨a,s₃,ended,-⟩ := gettoken_end reads₂
        exact .step ended (.of_error rfl Stop.noConfusion)
      | cons t' ts =>
        obtain ⟨q',s₃,taken',reads₃,word⟩ := gettoken_eq reads₂
        refine .step taken' ?_
        by_cases named : t'.ret = 97
        · obtain ⟨w,rfl⟩ := ret_word named
          obtain ⟨text,cut⟩ := word w rfl
          obtain ⟨r,r',redirect,built,shown,file⟩ :=
            redircmd_eq symbol w ⟨q',q' + (Token.word w).spelling.length⟩ text
          rw [if_neg (not_not.mpr named)]
          refine (ih reads₃ (by simp only [List.length_cons] at enough; omega)).bind ?_
          rintro rs s₄ ⟨used,rest,rfl,reads₄,redirs,cuts⟩
          refine .pure_intro ⟨t :: .word w :: used,rest,rfl,reads₄,?_,?_⟩
          · simp only [built,List.map_append,List.map_cons,List.map_nil,shown]
            exact .cons redirect redirs
          · simp only [built,List.singleton_append,List.forall_mem_cons,file]
            exact ⟨cut,cuts⟩
        · rw [if_pos named]
          exact .of_error rfl Stop.noConfusion

theorem parseargs_meets (fuel argc : Nat) (reads : Reads mem es s ts) (enough : ts.length < fuel) (few : argc < maxArgs) :
    Meets (parseargs mem es fuel argc) s (fun r s' => ∃ used rest, ts = used ++ rest ∧ Reads mem es s' rest ∧
      Words used (r.1.map (chars mem)) (r.2.map (Redir.map (chars mem))) ∧ argc + r.1.length < maxArgs ∧
      (∀ a ∈ r.1, Cut mem es a) ∧ ∀ redir ∈ r.2, Cut mem es redir.file) Panics := by
  induction fuel generalizing s ts argc with
  | zero => omega
  | succ fuel ih =>
    obtain ⟨s₁,peeked,reads₁⟩ := peek_eq [124,41,38,59] (by decide) reads
    rw [parseargs]
    refine .step peeked ?_
    cases starts [124,41,38,59] ts with
    | true => exact .pure_intro ⟨[],ts,rfl,reads₁,.nil,few,List.forall_mem_nil _,List.forall_mem_nil _⟩
    | false =>
      cases ts with
      | nil =>
        obtain ⟨a,s₂,ended,reads₂⟩ := gettoken_end reads₁
        exact .step ended (.pure_intro ⟨[],[],rfl,reads₂,.nil,few,List.forall_mem_nil _,List.forall_mem_nil _⟩)
      | cons t ts =>
        obtain ⟨q,s₂,taken,reads₂,word⟩ := gettoken_eq reads₁
        refine .step taken ?_
        rw [if_neg (ret_ne_zero t)]
        by_cases named : t.ret = 97
        · obtain ⟨w,rfl⟩ := ret_word named
          obtain ⟨text,cut⟩ := word w rfl
          rw [if_neg (not_not.mpr named)]
          by_cases many : argc + 1 ≥ maxArgs
          · rw [if_pos many]
            exact .of_error rfl Stop.noConfusion
          · rw [if_neg many]
            refine (parseredirs_meets (es + 1) reads₂ (Nat.lt_succ_of_le reads₂.length_le)).bind ?_
            rintro rs s₃ ⟨us,rest,rfl,reads₃,redirs,cuts⟩
            simp only [List.length_cons,List.length_append] at enough
            refine (ih (argc + 1) reads₃ (by omega) (by omega)).bind ?_
            rintro ⟨argv,more⟩ s₄ ⟨used,rest,rfl,reads₄,words,few,inside,inside'⟩
            refine .pure_intro ⟨.word w :: us ++ used,rest,by simp,reads₄,?_,?_,?_,?_⟩
            · simp only [List.map_cons,List.map_append,Token.spelling,text]
              exact .cons redirs words
            · simp only [List.length_cons] at few ⊢
              omega
            · exact List.forall_mem_cons.mpr ⟨cut,inside⟩
            · exact List.forall_mem_append.mpr ⟨cuts,inside'⟩
        · rw [if_pos named]
          exact .of_error rfl Stop.noConfusion

theorem parsebacks_meets (fuel : Nat) (cmd : Cmd Span) (reads : Reads mem es s ts) (enough : ts.length < fuel) :
    Meets (parsebacks mem es fuel cmd) s (fun cmd' s' => ∃ n rest, ts = List.replicate n .amp ++ rest ∧ Reads mem es s' rest ∧
      cmd' = Cmd.back^[n] cmd) Panics := by
  induction fuel generalizing s ts cmd with
  | zero => omega
  | succ fuel ih =>
    obtain ⟨s₁,peeked,reads₁⟩ := peek_eq [38] (by decide) reads
    rw [parsebacks]
    refine .step peeked ?_
    cases hit : starts [38] ts with
    | false => exact .pure_intro ⟨0,ts,rfl,reads₁,rfl⟩
    | true =>
      obtain ⟨t,ts,rfl,symbol⟩ := starts_true hit
      obtain ⟨q,s₂,taken,reads₂,-⟩ := gettoken_eq reads₁
      refine .step taken ((ih (.back cmd) reads₂ (by simp only [List.length_cons] at enough; omega)).mono ?_ fun _ => id)
      rintro cmd' s₃ ⟨n,rest,rfl,reads₃,rfl⟩
      refine ⟨n + 1,rest,?_,reads₃,rfl⟩
      cases t <;> simp [Token.symbol,Token.spelling,List.replicate_succ] at symbol ⊢

def parse (mem : Buffer) (es : Nat) : Nonterminal → Nat → P (Cmd Span)
  | .line => parseline mem es
  | .pipe => parsepipe mem es
  | .exec => parseexec mem es
  | .block => parseblock mem es

/-- How deep the calls are before a token is taken. -/
def Nonterminal.height : Nonterminal → Nat
  | .line => 4
  | .pipe => 3
  | .exec => 2
  | .block => 1

def Parsed (mem : Buffer) (es : Nat) (k : Nonterminal) (ts : List Token) (cmd : Cmd Span) (s : Nat) : Prop :=
  ∃ used rest, ts = used ++ rest ∧ Reads mem es s rest ∧ Derives k used (cmd.map (chars mem)) ∧ ∀ a ∈ cmd.words, Cut mem es a

def Sound (mem : Buffer) (es : Nat) (k : Nonterminal) (fuel : Nat) : Prop :=
  ∀ s ts, Reads mem es s ts → 4 * ts.length + k.height ≤ fuel → Meets (parse mem es k fuel) s (Parsed mem es k ts) Panics

theorem parseline_sound {fuel : Nat} (pipe : Sound mem es .pipe fuel) (line : Sound mem es .line fuel) :
    Sound mem es .line (fuel + 1) := by
  intro s ts reads enough
  simp only [Nonterminal.height] at enough
  rw [parse,parseline]
  refine (pipe s ts reads (by simp only [Nonterminal.height]; omega)).bind ?_
  rintro cmd s₁ ⟨used,rest,rfl,reads₁,derives,cuts⟩
  refine (parsebacks_meets (es + 1) cmd reads₁ (Nat.lt_succ_of_le reads₁.length_le)).bind ?_
  rintro _ s₂ ⟨n,rest,rfl,reads₂,rfl⟩
  have inside : ∀ a ∈ (Cmd.back^[n] cmd).words, Cut mem es a := by rwa [backs_words]
  obtain ⟨s₃,peeked,reads₃⟩ := peek_eq [59] (by decide) reads₂
  refine .step peeked ?_
  cases hit : starts [59] rest with
  | false =>
    refine .pure_intro ⟨used ++ List.replicate n .amp,rest,by rw [List.append_assoc],reads₃,?_,inside⟩
    rw [backs_map]
    exact .line derives
  | true =>
    obtain ⟨t,rest,rfl,symbol⟩ := starts_true hit
    obtain ⟨q,s₄,taken,reads₄,-⟩ := gettoken_eq reads₃
    simp only [List.length_append,List.length_cons] at enough
    refine .step taken ((line s₄ rest reads₄ (by simp only [Nonterminal.height]; omega)).bind ?_)
    rintro cmd' s₅ ⟨used',rest,rfl,reads₅,derives',cuts'⟩
    refine .pure_intro ⟨used ++ List.replicate n .amp ++ .semi :: used',rest,?_,reads₅,?_,List.forall_mem_append.mpr ⟨inside,cuts'⟩⟩
    · cases t <;> simp [Token.symbol,Token.spelling] at symbol ⊢
    · rw [Cmd.map,backs_map]
      exact .list derives derives'

theorem parsepipe_sound {fuel : Nat} (exec : Sound mem es .exec fuel) (pipe : Sound mem es .pipe fuel) :
    Sound mem es .pipe (fuel + 1) := by
  intro s ts reads enough
  simp only [Nonterminal.height] at enough
  rw [parse,parsepipe]
  refine (exec s ts reads (by simp only [Nonterminal.height]; omega)).bind ?_
  rintro cmd s₁ ⟨used,rest,rfl,reads₁,derives,cuts⟩
  obtain ⟨s₂,peeked,reads₂⟩ := peek_eq [124] (by decide) reads₁
  refine .step peeked ?_
  cases hit : starts [124] rest with
  | false => exact .pure_intro ⟨used,rest,rfl,reads₂,.single derives,cuts⟩
  | true =>
    obtain ⟨t,rest,rfl,symbol⟩ := starts_true hit
    obtain ⟨q,s₃,taken,reads₃,-⟩ := gettoken_eq reads₂
    simp only [List.length_append,List.length_cons] at enough
    refine .step taken ((pipe s₃ rest reads₃ (by simp only [Nonterminal.height]; omega)).bind ?_)
    rintro cmd' s₄ ⟨used',rest,rfl,reads₄,derives',cuts'⟩
    refine .pure_intro ⟨used ++ .bar :: used',rest,?_,reads₄,.pipe derives derives',List.forall_mem_append.mpr ⟨cuts,cuts'⟩⟩
    cases t <;> simp [Token.symbol,Token.spelling] at symbol ⊢

theorem cuts_wrap {cmd : Cmd Span} {rs : List (Redir Span)} (cuts : ∀ a ∈ cmd.words, Cut mem es a)
    (cuts' : ∀ r ∈ rs, Cut mem es r.file) : ∀ a ∈ (wrap cmd rs).words, Cut mem es a := by
  rw [wrap_words]
  refine List.forall_mem_append.mpr ⟨cuts,?_⟩
  rw [List.forall_mem_map]
  exact cuts'

theorem parseblock_sound {fuel : Nat} (line : Sound mem es .line fuel) : Sound mem es .block (fuel + 1) := by
  intro s ts reads enough
  simp only [Nonterminal.height] at enough
  rw [parse,parseblock]
  obtain ⟨s₁,peeked,reads₁⟩ := peek_eq [40] (by decide) reads
  refine .step peeked ?_
  cases hit : starts [40] ts with
  | false => exact .of_error rfl Stop.noConfusion
  | true =>
    obtain ⟨t,ts,rfl,symbol⟩ := starts_true hit
    obtain ⟨q,s₂,taken,reads₂,-⟩ := gettoken_eq reads₁
    simp only [List.length_cons] at enough
    refine .step taken ((line s₂ ts reads₂ (by simp only [Nonterminal.height]; omega)).bind ?_)
    rintro cmd s₃ ⟨used,rest,rfl,reads₃,derives,cuts⟩
    obtain ⟨s₄,peeked',reads₄⟩ := peek_eq [41] (by decide) reads₃
    refine .step peeked' ?_
    cases hit' : starts [41] rest with
    | false => exact .of_error rfl Stop.noConfusion
    | true =>
      obtain ⟨t',rest,rfl,symbol'⟩ := starts_true hit'
      obtain ⟨q',s₅,taken',reads₅,-⟩ := gettoken_eq reads₄
      refine .step taken' ((parseredirs_meets (es + 1) reads₅ (Nat.lt_succ_of_le reads₅.length_le)).bind ?_)
      rintro rs s₆ ⟨us,rest,rfl,reads₆,redirs,cuts'⟩
      refine .pure_intro ⟨.lparen :: used ++ .rparen :: us,rest,?_,reads₆,?_,cuts_wrap cuts cuts'⟩
      · cases t <;> cases t' <;> simp [Token.symbol,Token.spelling] at symbol symbol' ⊢
      · rw [wrap_map]
        exact .block derives redirs

theorem parseexec_sound {fuel : Nat} (block : Sound mem es .block fuel) : Sound mem es .exec (fuel + 1) := by
  intro s ts reads enough
  simp only [Nonterminal.height] at enough
  rw [parse,parseexec]
  obtain ⟨s₁,peeked,reads₁⟩ := peek_eq [40] (by decide) reads
  refine .step peeked ?_
  cases starts [40] ts with
  | true =>
    refine (block s₁ ts reads₁ (by simp only [Nonterminal.height]; omega)).mono ?_ fun _ => id
    rintro cmd s₂ ⟨used,rest,split,reads₂,derives,cuts⟩
    exact ⟨used,rest,split,reads₂,.grouped derives,cuts⟩
  | false =>
    refine (parseredirs_meets (es + 1) reads₁ (Nat.lt_succ_of_le reads₁.length_le)).bind ?_
    rintro rs s₂ ⟨us,rest,rfl,reads₂,redirs,cuts⟩
    refine (parseargs_meets (es + 1) 0 reads₂ (Nat.lt_succ_of_le reads₂.length_le) (by decide)).bind ?_
    rintro ⟨argv,more⟩ s₃ ⟨used,rest,rfl,reads₃,words,few,inside,inside'⟩
    refine .pure_intro ⟨us ++ used,rest,by rw [List.append_assoc],reads₃,?_,
      cuts_wrap inside (List.forall_mem_append.mpr ⟨cuts,inside'⟩)⟩
    rw [wrap_map,List.map_append,Cmd.map]
    exact .simple redirs words (by simpa using few)

theorem parse_sound (fuel : Nat) (k : Nonterminal) : Sound mem es k fuel := by
  induction fuel generalizing k with
  | zero =>
    intro s ts _ enough
    cases k <;> simp [Nonterminal.height] at enough
  | succ fuel ih =>
    cases k with
    | line => exact parseline_sound (ih .pipe) (ih .line)
    | pipe => exact parsepipe_sound (ih .exec) (ih .pipe)
    | exec => exact parseexec_sound (ih .block)
    | block => exact parseblock_sound (ih .line)

theorem parsewhole_meets {text : List UInt8} (stored : Stored mem 0 text) (lexes : Lexes text ts) :
    Meets (parsewhole mem text.length) 0 (fun cmd _ => Derives .line ts (cmd.map (chars mem)) ∧
      ∀ a ∈ cmd.words, Cut mem text.length a) Panics := by
  have reads : Reads mem text.length 0 ts := ⟨text,stored,Nat.zero_add _,lexes⟩
  rw [parsewhole]
  refine (parse_sound (4 * text.length + 4) .line 0 ts reads ?_).bind ?_
  · have bound := reads.length_le
    simp only [Nonterminal.height]
    omega
  · rintro cmd s₁ ⟨used,rest,rfl,reads₁,derives,cuts⟩
    obtain ⟨s₂,peeked,reads₂⟩ := peek_eq [] (List.nil_subset _) reads₁
    refine .step peeked ?_
    by_cases ended : s₂ = text.length
    · obtain ⟨left,-,whole,lexes⟩ := reads₂
      have none : rest = [] := List.length_eq_zero_iff.mp (by have bound := lexes.length_le; omega)
      rw [none,List.append_nil]
      exact .of_ok (if_neg (not_not.mpr ended)) ⟨derives,cuts⟩
    · exact .of_error (if_pos ended) Stop.noConfusion

theorem parsecmd_sound {text : List UInt8} (stored : Stored mem 0 text) (lexes : Lexes text ts) {cmd : Cmd Span} {mem' : Buffer}
    (parsed : parsecmd mem text.length = .ok (cmd,mem')) :
    Derives .line ts (cmd.map (chars mem)) ∧ (∀ a ∈ cmd.words, Cut mem text.length a) ∧ mem' = nulterminate cmd mem := by
  have meets := parsewhole_meets stored lexes
  cases ran : parsewhole mem text.length 0 with
  | error e =>
    rw [parsecmd,ran] at parsed
    cases parsed
  | ok result =>
    rw [parsecmd,ran] at parsed
    obtain ⟨rfl,rfl⟩ := Prod.mk.inj (Except.ok.inj parsed)
    obtain ⟨derives,cuts⟩ := meets.result ran
    exact ⟨derives,cuts,rfl⟩

end

end Xv6Ext2.Sh
