import Xv6Ext2.Sh.Nulterminate

/-! The other direction: a line that the grammar derives is accepted, and it is so for the line that a command is printed as. -/
namespace Xv6Ext2.Sh
open Lib Function

/-- The symbols that may come behind a nonterminal. -/
def Nonterminal.follow : Nonterminal → List UInt8
  | .line => [41]
  | .pipe => [41,38,59]
  | .exec => [124,41,38,59]
  | .block => [124,41,38,59]

def Follows (k : Nonterminal) (rest : List Token) : Prop := rest = [] ∨ starts k.follow rest = true

section

variable {mem : Buffer} {es s fuel : Nat} {k k' : Nonterminal} {ts us rest : List Token}

theorem Follows.stops (follows : Follows k rest) (toks : List UInt8) (apart : (k.follow.all fun c => !strchr toks c) = true) :
    starts toks rest = false := by
  obtain rfl | hit := follows
  · rfl
  · obtain ⟨t,rest,rfl,symbol⟩ := starts_true hit
    exact Bool.not_eq_true' _ ▸ List.all_eq_true.mp apart _ symbol

theorem Follows.mono (follows : Follows k rest) (sub : k.follow ⊆ k'.follow) : Follows k' rest := by
  obtain rfl | hit := follows
  · exact .inl rfl
  · obtain ⟨t,rest,rfl,symbol⟩ := starts_true hit
    exact .inr (decide_eq_true (sub symbol))

theorem parseredirs_returns {rs : List (Redir (List UInt8))} (redirs : Redirs us rs) (stops : starts [60,62] rest = false)
    (reads : Reads mem es s (us ++ rest)) (enough : (us ++ rest).length ≤ fuel) :
    Meets (parseredirs mem es (fuel + 1)) s (fun rs' s' => rs'.map (Redir.map (chars mem)) = rs ∧ Reads mem es s' rest)
      fun _ => False := by
  induction redirs generalizing s fuel with
  | nil =>
    obtain ⟨s₁,peeked,reads₁⟩ := peek_eq [60,62] (by decide) reads
    rw [List.nil_append] at peeked reads₁
    rw [parseredirs]
    refine .step peeked ?_
    rw [stops]
    exact .pure_intro ⟨rfl,reads₁⟩
  | @cons t w r us rs first _ ih =>
    have symbol : t.symbol ∈ [60,62] := by cases t <;> simp [Token.redirect,Token.symbol,Token.spelling] at first ⊢
    obtain ⟨s₁,peeked,reads₁⟩ := peek_eq [60,62] (by decide) reads
    obtain ⟨q,s₂,taken,reads₂,-⟩ := gettoken_eq reads₁
    obtain ⟨q',s₃,taken',reads₃,word⟩ := gettoken_eq reads₂
    obtain ⟨r₁,r',redirect,built,shown,-⟩ := redircmd_eq symbol w ⟨q',q' + (Token.word w).spelling.length⟩ (word w rfl).1
    obtain rfl : r₁ = r := Option.some.inj (redirect.symm.trans first)
    simp only [List.cons_append,List.length_cons] at enough
    obtain ⟨fuel,rfl⟩ : ∃ n, fuel = n + 1 := ⟨fuel - 1,by omega⟩
    rw [parseredirs]
    refine .step peeked ?_
    rw [if_pos (show starts [60,62] (t :: .word w :: us ++ rest) = true from decide_eq_true symbol)]
    refine .step taken (.step taken' ?_)
    refine (ih reads₃ (by omega)).bind ?_
    rintro rs' s₄ ⟨shown',reads₄⟩
    refine .pure_intro ⟨?_,reads₄⟩
    simp only [built,List.map_append,List.map_cons,List.map_nil,shown,shown']
    rfl

theorem Words.stops {argv : List (List UInt8)} {more : List (Redir (List UInt8))} (words : Words ts argv more) {toks : List UInt8}
    (zero : 0 ∉ toks) (stops : starts toks rest = false) : starts toks (ts ++ rest) = false := by
  cases words with
  | nil => exact stops
  | cons => exact decide_eq_false zero

theorem parseargs_returns {argv : List (List UInt8)} {more : List (Redir (List UInt8))} {argc : Nat} (words : Words ts argv more)
    (few : argc + argv.length < maxArgs) (follows : Follows .exec rest) (reads : Reads mem es s (ts ++ rest))
    (enough : (ts ++ rest).length ≤ fuel) :
    Meets (parseargs mem es (fuel + 1) argc) s (fun r s' => r.1.map (chars mem) = argv ∧ r.2.map (Redir.map (chars mem)) = more ∧
      Reads mem es s' rest) fun _ => False := by
  induction words generalizing s fuel argc with
  | nil =>
    obtain ⟨s₁,peeked,reads₁⟩ := peek_eq [124,41,38,59] (by decide) reads
    rw [List.nil_append] at peeked reads₁
    rw [parseargs]
    refine .step peeked ?_
    obtain rfl | hit := follows
    · obtain ⟨a,s₂,ended,reads₂⟩ := gettoken_end reads₁
      exact .step ended (.pure_intro ⟨rfl,rfl,reads₂⟩)
    · rw [if_pos (show starts [124,41,38,59] rest = true from hit)]
      exact .pure_intro ⟨rfl,rfl,reads₁⟩
  | @cons w us ts argv rs more redirs words ih =>
    have shape : .word w :: us ++ ts ++ rest = .word w :: (us ++ (ts ++ rest)) := by simp
    rw [shape] at reads enough
    obtain ⟨s₁,peeked,reads₁⟩ := peek_eq [124,41,38,59] (by decide) reads
    obtain ⟨q,s₂,taken,reads₂,word⟩ := gettoken_eq reads₁
    simp only [List.length_cons,List.length_append,maxArgs] at enough few
    obtain ⟨fuel,rfl⟩ : ∃ n, fuel = n + 1 := ⟨fuel - 1,by omega⟩
    rw [parseargs]
    refine .step peeked (.step taken ?_)
    have named : (Token.word w).ret = 97 := rfl
    rw [if_neg (ret_ne_zero _),if_neg (not_not.mpr named),if_neg (by rw [maxArgs]; omega)]
    have stops := words.stops (by decide) (follows.stops [60,62] rfl)
    refine (parseredirs_returns redirs stops reads₂ reads₂.length_le).bind ?_
    rintro rs' s₃ ⟨shown,reads₃⟩
    refine (ih (by rw [maxArgs]; omega) reads₃ (by rw [List.length_append]; omega)).bind ?_
    rintro ⟨argv',more'⟩ s₄ ⟨shown₁,shown₂,reads₄⟩
    refine .pure_intro ⟨?_,?_,reads₄⟩
    · rw [List.map_cons,shown₁]
      exact congrArg (· :: argv) (word w rfl).1
    · rw [List.map_append,shown,shown₂]

theorem parsebacks_returns (n : Nat) (cmd : Cmd Span) (stops : starts [38] rest = false)
    (reads : Reads mem es s (List.replicate n .amp ++ rest)) (enough : (List.replicate n Token.amp ++ rest).length ≤ fuel) :
    Meets (parsebacks mem es (fuel + 1) cmd) s (fun cmd' s' => cmd' = Cmd.back^[n] cmd ∧ Reads mem es s' rest) fun _ => False := by
  induction n generalizing s fuel cmd with
  | zero =>
    obtain ⟨s₁,peeked,reads₁⟩ := peek_eq [38] (by decide) reads
    rw [List.replicate_zero,List.nil_append] at peeked reads₁
    rw [parsebacks]
    refine .step peeked ?_
    rw [stops]
    exact .pure_intro ⟨rfl,reads₁⟩
  | succ n ih =>
    rw [List.replicate_succ,List.cons_append] at reads enough
    obtain ⟨s₁,peeked,reads₁⟩ := peek_eq [38] (by decide) reads
    obtain ⟨q,s₂,taken,reads₂,-⟩ := gettoken_eq reads₁
    rw [List.length_cons] at enough
    obtain ⟨fuel,rfl⟩ : ∃ n, fuel = n + 1 := ⟨fuel - 1,by omega⟩
    rw [parsebacks]
    exact .step peeked (.step taken (ih (.back cmd) reads₂ (by omega)))

def Complete (k : Nonterminal) (ts : List Token) (c : Cmd (List UInt8)) : Prop :=
  ∀ (mem : Buffer) (es s fuel : Nat) (rest : List Token), Follows k rest → Reads mem es s (ts ++ rest) →
    4 * (ts ++ rest).length + k.height ≤ fuel →
    Meets (parse mem es k fuel) s (fun cmd s' => cmd.map (chars mem) = c ∧ Reads mem es s' rest) fun _ => False

theorem follows_amps (n : Nat) (follows : Follows .pipe rest) : Follows .pipe (List.replicate n .amp ++ rest) := by
  cases n with
  | zero => exact follows
  | succ n => exact .inr rfl

variable {c d : Cmd (List UInt8)}

theorem Complete.start {β : Type} {f : Cmd Span → P β} {post : β → Nat → Prop} {n : Nat} (first : Complete .pipe ts c)
    (follows : Follows .pipe rest) (stops : starts [38] rest = false)
    (reads : Reads mem es s (ts ++ (List.replicate n .amp ++ rest)))
    (enough : 4 * (ts ++ (List.replicate n Token.amp ++ rest)).length + 3 ≤ fuel)
    (next : ∀ cmd s', cmd.map (chars mem) = Cmd.back^[n] c → Reads mem es s' rest → Meets (f cmd) s' post fun _ => False) :
    Meets (parsepipe mem es fuel >>= fun cmd => parsebacks mem es (es + 1) cmd >>= f) s post fun _ => False := by
  refine (first mem es s fuel _ (follows_amps n follows) reads enough).bind ?_
  rintro cmd s₁ ⟨rfl,reads₁⟩
  refine (parsebacks_returns n cmd stops reads₁ reads₁.length_le).bind ?_
  rintro _ s₂ ⟨rfl,reads₂⟩
  exact next _ s₂ (backs_map _ n cmd) reads₂

theorem Derives.complete (derives : Derives k ts c) : Complete k ts c := by
  induction derives with
  | @line n ts c _ first =>
    intro mem es s fuel rest follows reads enough
    rw [List.append_assoc] at reads enough
    obtain ⟨fuel,rfl⟩ : ∃ n, fuel = n + 1 := ⟨fuel - 1,by simp only [Nonterminal.height] at enough; omega⟩
    rw [parse,parseline]
    refine first.start (follows.mono (by decide)) (follows.stops [38] rfl) reads (Nat.le_of_succ_le_succ enough) ?_
    intro cmd s₁ shown reads₁
    obtain ⟨s₂,peeked,reads₂⟩ := peek_eq [59] (by decide) reads₁
    refine .step peeked ?_
    rw [follows.stops [59] rfl]
    exact .pure_intro ⟨shown,reads₂⟩
  | @list n ts us c d _ _ first rest' =>
    intro mem es s fuel rest follows reads enough
    rw [List.append_assoc,List.append_assoc,List.cons_append] at reads enough
    obtain ⟨fuel,rfl⟩ : ∃ n, fuel = n + 1 := ⟨fuel - 1,by simp only [Nonterminal.height] at enough; omega⟩
    rw [parse,parseline]
    refine first.start (.inr rfl) rfl reads (Nat.le_of_succ_le_succ enough) ?_
    intro cmd s₁ shown reads₁
    obtain ⟨s₂,peeked,reads₂⟩ := peek_eq [59] (by decide) reads₁
    obtain ⟨q,s₃,taken,reads₃,-⟩ := gettoken_eq reads₂
    simp only [List.length_append,List.length_cons,Nonterminal.height] at enough
    refine .step peeked (.step taken ?_)
    refine (rest' mem es s₃ fuel rest follows reads₃ ?_).bind ?_
    · simp only [List.length_append,Nonterminal.height]
      omega
    · rintro cmd' s₄ ⟨shown',reads₄⟩
      refine .pure_intro ⟨?_,reads₄⟩
      rw [Cmd.map,shown,shown']
  | single _ first =>
    intro mem es s fuel rest follows reads enough
    obtain ⟨fuel,rfl⟩ : ∃ n, fuel = n + 1 := ⟨fuel - 1,by simp only [Nonterminal.height] at enough; omega⟩
    rw [parse,parsepipe]
    refine (first mem es s fuel rest (follows.mono (by decide)) reads (Nat.le_of_succ_le_succ enough)).bind ?_
    rintro cmd s₁ ⟨shown,reads₁⟩
    obtain ⟨s₂,peeked,reads₂⟩ := peek_eq [124] (by decide) reads₁
    refine .step peeked ?_
    rw [follows.stops [124] rfl]
    exact .pure_intro ⟨shown,reads₂⟩
  | pipe _ _ first rest' =>
    intro mem es s fuel rest follows reads enough
    rw [List.append_assoc,List.cons_append] at reads enough
    obtain ⟨fuel,rfl⟩ : ∃ n, fuel = n + 1 := ⟨fuel - 1,by simp only [Nonterminal.height] at enough; omega⟩
    rw [parse,parsepipe]
    refine (first mem es s fuel _ (.inr rfl) reads (Nat.le_of_succ_le_succ enough)).bind ?_
    rintro cmd s₁ ⟨shown,reads₁⟩
    obtain ⟨s₂,peeked,reads₂⟩ := peek_eq [124] (by decide) reads₁
    obtain ⟨q,s₃,taken,reads₃,-⟩ := gettoken_eq reads₂
    simp only [List.length_append,List.length_cons,Nonterminal.height] at enough
    refine .step peeked (.step taken ?_)
    refine (rest' mem es s₃ fuel rest follows reads₃ ?_).bind ?_
    · simp only [List.length_append,Nonterminal.height]
      omega
    · rintro cmd' s₄ ⟨shown',reads₄⟩
      refine .pure_intro ⟨?_,reads₄⟩
      rw [Cmd.map,shown,shown']
  | grouped derives first =>
    intro mem es s fuel rest follows reads enough
    obtain ⟨fuel,rfl⟩ : ∃ n, fuel = n + 1 := ⟨fuel - 1,by simp only [Nonterminal.height] at enough; omega⟩
    cases derives with
    | block =>
      obtain ⟨s₁,peeked,reads₁⟩ := peek_eq [40] (by decide) reads
      rw [parse,parseexec]
      exact .step peeked (first mem es s₁ fuel rest (follows.mono (by decide)) reads₁ (Nat.le_of_succ_le_succ enough))
  | @block ts us c rs _ redirs line =>
    intro mem es s fuel rest follows reads enough
    have shape : .lparen :: ts ++ .rparen :: us ++ rest = .lparen :: (ts ++ .rparen :: (us ++ rest)) := by simp
    rw [shape] at reads enough
    obtain ⟨fuel,rfl⟩ : ∃ n, fuel = n + 1 := ⟨fuel - 1,by simp only [Nonterminal.height] at enough; omega⟩
    rw [parse,parseblock]
    obtain ⟨s₁,peeked,reads₁⟩ := peek_eq [40] (by decide) reads
    obtain ⟨q,s₂,taken,reads₂,-⟩ := gettoken_eq reads₁
    refine .step peeked (.step taken ?_)
    refine (line mem es s₂ fuel _ (.inr rfl) reads₂ ?_).bind ?_
    · simp only [List.length_cons,Nonterminal.height] at enough ⊢
      omega
    · rintro cmd s₃ ⟨shown,reads₃⟩
      obtain ⟨s₄,peeked',reads₄⟩ := peek_eq [41] (by decide) reads₃
      obtain ⟨q',s₅,taken',reads₅,-⟩ := gettoken_eq reads₄
      refine .step peeked' (.step taken' ?_)
      refine (parseredirs_returns redirs (follows.stops [60,62] rfl) reads₅ reads₅.length_le).bind ?_
      rintro rs' s₆ ⟨shown',reads₆⟩
      refine .pure_intro ⟨?_,reads₆⟩
      rw [wrap_map,shown,shown']
  | @simple us ts argv rs more redirs words few =>
    intro mem es s fuel rest follows reads enough
    have first : starts [40] (us ++ (ts ++ rest)) = false := by
      cases redirs with
      | nil => exact words.stops (by decide) (follows.stops [40] rfl)
      | @cons t w r us rs first _ => cases t <;> first | rfl | cases first
    rw [List.append_assoc] at reads
    obtain ⟨fuel,rfl⟩ : ∃ n, fuel = n + 1 := ⟨fuel - 1,by simp only [Nonterminal.height] at enough; omega⟩
    rw [parse,parseexec]
    obtain ⟨s₁,peeked,reads₁⟩ := peek_eq [40] (by decide) reads
    refine .step peeked ?_
    rw [first]
    refine (parseredirs_returns redirs (words.stops (by decide) (follows.stops [60,62] rfl)) reads₁ reads₁.length_le).bind ?_
    rintro rs' s₂ ⟨shown,reads₂⟩
    refine (parseargs_returns words (by rwa [Nat.zero_add]) follows reads₂ reads₂.length_le).bind ?_
    rintro ⟨argv',more'⟩ s₃ ⟨rfl,shown',reads₃⟩
    refine .pure_intro ⟨?_,reads₃⟩
    rw [wrap_map,List.map_append,shown,shown',Cmd.map]

end

def parens (own place : Nat) (ts : List Token) : List Token := if own ≤ place then ts else .lparen :: ts ++ [.rparen]

def Redir.print (r : Redir (List UInt8)) : List Token := [if r.fd = 0 then .less else .greater,.word r.file]

/-- The tokens of a command in a place for an exec (0), a pipe (1), a pipe with `&` behind it (2) or a line (3). -/
def Cmd.print : Cmd (List UInt8) → Nat → List Token
  | .exec argv, _ => argv.map .word
  | .redir cmd r, _ => cmd.print 0 ++ r.print
  | .pipe left right, place => parens 1 place (left.print 0 ++ .bar :: right.print 1)
  | .back cmd, place => parens 2 place (cmd.print 2 ++ [.amp])
  | .list left right, place => parens 3 place (left.print 2 ++ .semi :: right.print 3)

def Redir.Fine (r : Redir (List UInt8)) : Prop := ∃ (t : Token) (w : List UInt8), t.redirect w = some r

/-- A command that a line can be. -/
def Cmd.Fine : Cmd (List UInt8) → Prop
  | .exec argv => argv.length < maxArgs
  | .redir cmd r => cmd.Fine ∧ r.Fine
  | .pipe left right => left.Fine ∧ right.Fine
  | .list left right => left.Fine ∧ right.Fine
  | .back cmd => cmd.Fine

section

variable {ts us : List Token} {c d : Cmd (List UInt8)} {argv : List (List UInt8)} {r : Redir (List UInt8)}
  {rs more : List (Redir (List UInt8))} {k : Nonterminal} {text : List UInt8}

theorem wrap_fine (fine : c.Fine) (each : ∀ r ∈ rs, r.Fine) : (wrap c rs).Fine := by
  induction rs generalizing c with
  | nil => exact fine
  | cons r rs ih =>
    obtain ⟨first,each⟩ := List.forall_mem_cons.mp each
    exact ih (c := .redir c r) ⟨fine,first⟩ each

theorem backs_fine (n : Nat) (fine : c.Fine) : (Cmd.back^[n] c).Fine := by
  induction n generalizing c with
  | zero => exact fine
  | succ n ih => exact ih (c := .back c) fine

theorem Redirs.fine (redirs : Redirs ts rs) : ∀ r ∈ rs, r.Fine := by
  induction redirs with
  | nil => exact List.forall_mem_nil _
  | cons first _ ih => exact List.forall_mem_cons.mpr ⟨⟨_,_,first⟩,ih⟩

theorem Words.fine (words : Words ts argv more) : ∀ r ∈ more, r.Fine := by
  induction words with
  | nil => exact List.forall_mem_nil _
  | cons redirs _ ih => exact List.forall_mem_append.mpr ⟨redirs.fine,ih⟩

theorem Derives.fine (derives : Derives k ts c) : c.Fine := by
  induction derives with
  | line _ ih => exact backs_fine _ ih
  | list _ _ first rest => exact ⟨backs_fine _ first,rest⟩
  | single _ ih => exact ih
  | pipe _ _ first rest => exact ⟨first,rest⟩
  | grouped _ ih => exact ih
  | block _ redirs ih => exact wrap_fine ih redirs.fine
  | simple redirs words few => exact wrap_fine few (List.forall_mem_append.mpr ⟨redirs.fine,words.fine⟩)

theorem Redir.Fine.redirs (fine : r.Fine) : Redirs r.print [r] := by
  obtain ⟨t,w,redirect⟩ := fine
  cases t with
  | less | greater | append =>
    obtain rfl := Option.some.inj redirect
    exact .cons rfl .nil
  | _ => cases redirect

theorem Redirs.append (redirs : Redirs ts rs) (redirs' : Redirs us more) : Redirs (ts ++ us) (rs ++ more) := by
  induction redirs with
  | nil => exact redirs'
  | cons first _ ih => exact .cons first ih

theorem Words.redirect (words : Words ts argv more) (nonempty : argv ≠ []) (redirs : Redirs us rs) :
    Words (ts ++ us) argv (more ++ rs) := by
  induction words with
  | nil => exact absurd rfl nonempty
  | @cons w us' ts argv rs' more first words ih =>
    cases words with
    | nil =>
      rw [List.append_nil,List.append_nil]
      have last := Words.cons (w := w) (first.append redirs) .nil
      rwa [List.append_nil,List.append_nil] at last
    | cons =>
      have longer := Words.cons (w := w) first (ih (List.cons_ne_nil _ _))
      simpa only [List.append_assoc] using longer

theorem wrap_append (cmd : Cmd (List UInt8)) (rs : List (Redir (List UInt8))) (r : Redir (List UInt8)) :
    wrap cmd (rs ++ [r]) = .redir (wrap cmd rs) r := by
  rw [wrap,List.foldl_append]
  rfl

theorem Derives.redirect (derives : Derives .exec ts c) (fine : r.Fine) : Derives .exec (ts ++ r.print) (.redir c r) := by
  cases derives with
  | grouped block =>
    cases block with
    | block line redirs =>
      rw [List.append_assoc,List.cons_append,← wrap_append]
      exact .grouped (.block line (redirs.append fine.redirs))
  | @simple us ts argv rs more redirs words few =>
    rw [← wrap_append]
    cases argv with
    | nil =>
      cases words with
      | nil =>
        rw [List.append_nil,List.append_nil]
        have last := Derives.simple (redirs.append fine.redirs) .nil few
        rwa [List.append_nil,List.append_nil] at last
    | cons w argv =>
      rw [List.append_assoc,List.append_assoc]
      exact .simple redirs (words.redirect (List.cons_ne_nil _ _) fine.redirs) few

theorem Derives.alone (derives : Derives .pipe ts c) : Derives .line ts c := by
  have line := Derives.line (n := 0) derives
  rwa [List.replicate_zero,List.append_nil] at line

theorem Derives.group (derives : Derives .line ts c) : Derives .exec (.lparen :: ts ++ [.rparen]) c := .grouped (.block derives .nil)

structure Printed (c : Cmd (List UInt8)) : Prop where
  exec : Derives .exec (c.print 0) c
  pipe : Derives .pipe (c.print 1) c
  backs : ∃ n ts d, c.print 2 = ts ++ List.replicate n .amp ∧ c = Cmd.back^[n] d ∧ Derives .pipe ts d
  line : Derives .line (c.print 3) c

theorem Printed.of_exec (derives : Derives .exec ts c) (same : ∀ place, c.print place = ts) : Printed c where
  exec := by rwa [same]
  pipe := by rw [same]; exact .single derives
  backs := ⟨0,ts,c,by rw [same,List.replicate_zero,List.append_nil],rfl,.single derives⟩
  line := by rw [same]; exact (Derives.single derives).alone

theorem words_print (argv : List (List UInt8)) : Words (argv.map .word) argv [] := by
  induction argv with
  | nil => exact .nil
  | cons w argv ih => exact .cons .nil ih

theorem Cmd.Fine.printed (fine : c.Fine) : Printed c := by
  induction c with
  | exec argv => exact .of_exec (.simple .nil (words_print argv) fine) fun _ => rfl
  | redir cmd r ih => exact .of_exec ((ih fine.1).exec.redirect fine.2) fun _ => rfl
  | pipe left right ih ih' =>
    have here := Derives.pipe (ih fine.1).exec (ih' fine.2).pipe
    exact ⟨here.alone.group,here,⟨0,_,_,(List.append_nil _).symm,rfl,here⟩,here.alone⟩
  | list left right ih ih' =>
    obtain ⟨n,ts,d,tokens,same,derives⟩ := (ih fine.1).backs
    have here : Derives .line (left.print 2 ++ .semi :: right.print 3) (.list left right) := by
      rw [tokens]
      subst same
      exact .list derives (ih' fine.2).line
    exact ⟨here.group,.single here.group,⟨0,_,_,(List.append_nil _).symm,rfl,.single here.group⟩,here⟩
  | back cmd ih =>
    obtain ⟨n,ts,d,tokens,same,derives⟩ := (ih fine).backs
    have tokens' : cmd.print 2 ++ [.amp] = ts ++ List.replicate (n + 1) .amp := by
      rw [tokens,List.replicate_succ',List.append_assoc]
    have same' : Cmd.back cmd = Cmd.back^[n + 1] d := by rw [same,iterate_succ_apply']
    have here : Derives .line (cmd.print 2 ++ [.amp]) (.back cmd) := by
      rw [tokens',same']
      exact .line derives
    exact ⟨here.group,.single here.group,⟨n + 1,ts,d,tokens',same',derives⟩,here⟩

theorem Lexes.valid (lexes : Lexes text ts) (plain : 0 ∉ text) :
    ∀ w ∈ ts.filterMap Token.text, w ≠ [] ∧ (∀ c ∈ w, isWord c) ∧ 0 ∉ w := by
  induction lexes with
  | done => exact List.forall_mem_nil _
  | space _ _ ih => exact ih fun zero => plain (List.mem_cons_of_mem _ zero)
  | @token t rest ts maximal _ ih =>
    have others := ih fun zero => plain (List.mem_append_right _ zero)
    cases t with
    | word w =>
      rw [List.filterMap_cons_some (show (Token.word w).text = some w from rfl)]
      refine List.forall_mem_cons.mpr ⟨⟨maximal.1,maximal.2.1,?_⟩,others⟩
      exact fun zero => plain (List.mem_append_left _ zero)
    | _ => exact others

def spelled (ts : List Token) : List UInt8 := ts.flatMap fun t => t.spelling ++ [32]

theorem spelled_lexes (valid : ∀ w ∈ ts.filterMap Token.text, w ≠ [] ∧ (∀ c ∈ w, isWord c) ∧ 0 ∉ w) :
    0 ∉ spelled ts ∧ Lexes (spelled ts) ts := by
  induction ts with
  | nil => exact ⟨List.not_mem_nil,.done⟩
  | cons t ts ih =>
    have shape : spelled (t :: ts) = t.spelling ++ 32 :: spelled ts := by simp [spelled]
    have both (plain : 0 ∉ t.spelling) (maximal : t.Maximal (32 :: spelled ts)) (rest : 0 ∉ spelled ts ∧ Lexes (spelled ts) ts) :
        0 ∉ spelled (t :: ts) ∧ Lexes (spelled (t :: ts)) (t :: ts) := by
      rw [shape]
      refine ⟨?_,.token maximal (.space (by decide) rest.2)⟩
      simp [plain,rest.1]
    cases t with
    | word w =>
      rw [List.filterMap_cons_some (show (Token.word w).text = some w from rfl)] at valid
      obtain ⟨⟨nonempty,word,plain⟩,others⟩ := List.forall_mem_cons.mp valid
      refine both plain ⟨nonempty,word,?_⟩ (ih others)
      intro c head
      obtain rfl := Option.some.inj head
      decide
    | greater => exact both (by decide) (fun same => absurd (Option.some.inj same) (by decide)) (ih valid)
    | _ => exact both (by decide) True.intro (ih valid)

end

theorem skipSpace_end {mem : Buffer} {es s : Nat} (reads : Reads mem es s []) : skipSpace mem es s = es := by
  obtain ⟨text,stored,whole,lexes⟩ := reads
  have length := (skipSpace_eq stored whole).2
  obtain ⟨ended,-⟩ | ⟨t,rest,ts,-,same,-⟩ := lexes.split
  · rw [ended] at length
    exact length
  · cases same

theorem parsecmd_returns {text : List UInt8} {mem : Buffer} {ts : List Token} {c : Cmd (List UInt8)} (stored : Stored mem 0 text)
    (lexes : Lexes text ts) (derives : Derives .line ts c) :
    ∃ cmd mem', parsecmd mem text.length = .ok (cmd,mem') ∧ cmd.map (chars mem) = c := by
  have reads : Reads mem text.length 0 (ts ++ []) := by
    rw [List.append_nil]
    exact ⟨text,stored,Nat.zero_add _,lexes⟩
  have enough : 4 * (ts ++ []).length + Nonterminal.line.height ≤ 4 * text.length + 4 := by
    have bound := reads.length_le
    simp only [Nonterminal.height]
    omega
  obtain ⟨cmd,s,ran,shown,reads₁⟩ := (derives.complete mem _ 0 _ [] (.inl rfl) reads enough).returns fun _ => id
  have parsed : parsewhole mem text.length 0 = .ok (cmd,text.length) := by
    refine (bind_ok (x := parseline mem text.length (4 * text.length + 4)) ran _).trans ((bind_ok rfl _).trans ?_)
    rw [skipSpace_end reads₁]
    exact if_neg (not_not.mpr rfl)
  exact ⟨cmd,_,by rw [parsecmd,parsed],shown⟩

/-- `parsecmd` comes to an end, it accepts the lines of the grammar, and it reads back what a command is printed as. -/
theorem parsecmd_grammar (text : List UInt8) (mem : Buffer) (stored : Stored mem 0 text) :
    parsecmd mem text.length ≠ .error .diverges ∧
      ((∃ cmd mem', parsecmd mem text.length = .ok (cmd,mem')) ↔ ∃ ts c, Lexes text ts ∧ Derives .line ts c) ∧
      ∀ cmd mem', parsecmd mem text.length = .ok (cmd,mem') →
        (∃ text', 0 ∉ text' ∧ Lexes text' ((cmd.map (chars mem)).print 3)) ∧
          ∀ text' mem₁, Stored mem₁ 0 text' → Lexes text' ((cmd.map (chars mem)).print 3) →
            ∃ cmd' mem₁', parsecmd mem₁ text'.length = .ok (cmd',mem₁') ∧ cmd'.map (chars mem₁) = cmd.map (chars mem) := by
  obtain ⟨ts,lexes⟩ := lexes_exists text
  refine ⟨?_,⟨?_,?_⟩,?_⟩
  · have meets := parsewhole_meets stored lexes
    cases ran : parsewhole mem text.length 0 with
    | error e =>
      rw [Meets,ran] at meets
      rw [parsecmd,ran]
      exact fun same => meets (Except.error.inj same)
    | ok result =>
      rw [parsecmd,ran]
      intro same
      cases same
  · rintro ⟨cmd,mem',parsed⟩
    exact ⟨ts,_,lexes,(parsecmd_sound stored lexes parsed).1⟩
  · rintro ⟨ts,c,lexes,derives⟩
    obtain ⟨cmd,mem',parsed,-⟩ := parsecmd_returns stored lexes derives
    exact ⟨cmd,mem',parsed⟩
  · intro cmd mem' parsed
    obtain ⟨derives,-⟩ := parsecmd_sound stored lexes parsed
    have printed := derives.fine.printed.line
    refine ⟨⟨_,spelled_lexes ?_⟩,fun text' mem₁ stored' lexes' => parsecmd_returns stored' lexes' printed⟩
    intro w member
    exact lexes.valid stored.plain w (derives.texts.mem_iff.mp (printed.texts.mem_iff.mpr member))

/-- `(a;b)|c` -/
theorem parsecmd_grammar_group : ∃ ts c, Lexes [40,97,59,98,41,124,99] ts ∧ Derives .line ts c := by
  have stored : Stored (cstring [40,97,59,98,41,124,99]) 0 [40,97,59,98,41,124,99] := ⟨by decide,fun i _ => by rw [Nat.zero_add]⟩
  exact (parsecmd_grammar [40,97,59,98,41,124,99] _ stored).2.1.mp ⟨_,_,rfl⟩

end Xv6Ext2.Sh
