import Xv6Ext2.Sh.Grammar

/-! `nulterminate`. A byte that it overwrites is not part of a word, because every word of the line ends where no word goes on. -/
namespace Xv6Ext2.Sh
open Lib Function

def Token.text : Token → Option (List UInt8)
  | .word w => some w
  | _ => none

theorem Redirs.texts {ts : List Token} {rs : List (Redir (List UInt8))} (redirs : Redirs ts rs) :
    rs.map Redir.file = ts.filterMap Token.text := by
  induction redirs with
  | nil => rfl
  | @cons t w r ts rs first _ ih =>
    cases t with
    | less | greater | append =>
      obtain rfl := Option.some.inj first
      exact congrArg (w :: ·) ih
    | _ => cases first

theorem Words.texts {ts : List Token} {argv : List (List UInt8)} {rs : List (Redir (List UInt8))} (words : Words ts argv rs) :
    (argv ++ rs.map Redir.file).Perm (ts.filterMap Token.text) := by
  induction words with
  | nil => exact .nil
  | @cons w us ts argv rs more redirs _ ih =>
    have first : (Token.word w).text = some w := rfl
    rw [List.map_append,redirs.texts,List.cons_append,List.cons_append,List.filterMap_cons_some first,List.filterMap_append]
    refine .cons w ?_
    rw [← List.append_assoc]
    refine (List.perm_append_comm.append_right _).trans ?_
    rw [List.append_assoc]
    exact ih.append_left _

theorem filterMap_amps (n : Nat) : (List.replicate n Token.amp).filterMap Token.text = [] := by
  rw [List.filterMap_eq_nil_iff]
  intro t member
  rw [List.eq_of_mem_replicate member]
  rfl

theorem Derives.texts {k : Nonterminal} {ts : List Token} {c : Cmd (List UInt8)} (derives : Derives k ts c) :
    c.words.Perm (ts.filterMap Token.text) := by
  induction derives with
  | line _ ih =>
    rw [backs_words,List.filterMap_append,filterMap_amps,List.append_nil]
    exact ih
  | list _ _ first rest =>
    rw [Cmd.words,backs_words,List.filterMap_append,List.filterMap_append,filterMap_amps,List.append_nil]
    exact first.append rest
  | single _ ih => exact ih
  | pipe _ _ first rest =>
    rw [Cmd.words,List.filterMap_append]
    exact first.append rest
  | grouped _ ih => exact ih
  | @block ts us c rs _ redirs ih =>
    rw [wrap_words,redirs.texts,List.cons_append,List.filterMap_cons_none (show Token.lparen.text = none from rfl),
      List.filterMap_append]
    exact ih.append_right _
  | @simple us ts argv rs more redirs words _ =>
    rw [wrap_words,List.map_append,List.filterMap_append,redirs.texts,Cmd.words,← List.append_assoc]
    refine (List.perm_append_comm.append_right _).trans ?_
    rw [List.append_assoc]
    exact words.texts.append_left _

theorem words_map {α β : Type} (f : α → β) (c : Cmd α) : (c.map f).words = c.words.map f := by
  induction c with
  | exec argv => rfl
  | redir cmd r ih =>
    rw [Cmd.map,Cmd.words,ih,Cmd.words,List.map_append]
    rfl
  | pipe left right ih ih' => rw [Cmd.map,Cmd.words,ih,ih',Cmd.words,List.map_append]
  | list left right ih ih' => rw [Cmd.map,Cmd.words,ih,ih',Cmd.words,List.map_append]
  | back cmd ih => exact ih

theorem clear_eq (argv : List Span) (mem : Buffer) (i : Nat) :
    argv.foldl (fun mem a => update mem a.eq 0) mem i = if i ∈ argv.map Span.eq then 0 else mem i := by
  induction argv generalizing mem with
  | nil => rfl
  | cons a argv ih =>
    rw [List.foldl_cons,ih,update_apply,List.map_cons]
    by_cases here : i = a.eq
    · simp [here]
    · simp [here]

theorem nulterminate_eq (cmd : Cmd Span) (mem : Buffer) (i : Nat) :
    nulterminate cmd mem i = if i ∈ cmd.words.map Span.eq then 0 else mem i := by
  have both (l l' : List Span) (b : UInt8) : (if i ∈ l'.map Span.eq then 0 else if i ∈ l.map Span.eq then 0 else b) =
      if i ∈ (l ++ l').map Span.eq then 0 else b := by
    by_cases second : i ∈ l'.map Span.eq
    · rw [if_pos second,if_pos (by rw [List.map_append]; exact List.mem_append_right _ second)]
    · rw [if_neg second]
      simp only [List.map_append,List.mem_append,second,or_false]
  induction cmd generalizing mem with
  | exec argv => exact clear_eq argv mem i
  | redir cmd r ih =>
    rw [nulterminate,update_apply,ih,Cmd.words,← both]
    simp only [List.map_cons,List.map_nil,List.mem_singleton]
  | pipe left right ih ih' => rw [nulterminate,ih',ih,Cmd.words,both]
  | list left right ih ih' => rw [nulterminate,ih',ih,Cmd.words,both]
  | back cmd ih => exact ih mem

theorem Cut.stored {mem mem' : Buffer} {es : Nat} {a : Span} (cut : Cut mem es a) (plain : ∀ i < es, mem i ≠ 0)
    (same : ∀ i, a.q ≤ i → i < a.eq → mem' i = mem i) (ended : mem' a.eq = 0) : Stored mem' a.q (chars mem a) := by
  have length : (chars mem a).length = a.eq - a.q := by rw [chars,List.length_map,List.length_range]
  have le := cut.le
  refine ⟨?_,?_⟩
  · intro zero
    obtain ⟨i,inside,byte⟩ := List.mem_map.mp zero
    have bound := cut.bound
    rw [List.mem_range] at inside
    exact plain (a.q + i) (by omega) byte
  · intro i inside
    rw [length] at inside
    by_cases last : i = a.eq - a.q
    · subst last
      rw [cstring_end _ length.le,Nat.add_sub_cancel' le]
      exact ended
    · have before : i < a.eq - a.q := by omega
      rw [same (a.q + i) (by omega) (by omega),cstring,List.getD_eq_getElem _ _ (by rw [length]; exact before)]
      simp [chars]

/-- Every argument and every file name of an accepted line: each is a word of the line, and what is behind it is overwritten,
which is no byte of a word. -/
theorem nulterminate_cuts (text : List UInt8) (mem : Buffer) (stored : Stored mem 0 text) (cmd : Cmd Span) (mem' : Buffer)
    (parsed : parsecmd mem text.length = .ok (cmd,mem')) :
    (∃ ts, Lexes text ts ∧ (cmd.words.map (chars mem)).Perm (ts.filterMap Token.text)) ∧
      (∀ a ∈ cmd.words, Stored mem' a.q (chars mem a)) ∧
      (∀ a ∈ cmd.words, a.eq = text.length ∨ mem a.eq ∈ whitespace ∨ mem a.eq ∈ symbols) ∧
      (∀ a ∈ cmd.words, ∀ b ∈ cmd.words, a.eq < b.q ∨ b.eq ≤ a.eq) ∧
      ∀ i, (∀ a ∈ cmd.words, i ≠ a.eq) → mem' i = mem i := by
  obtain ⟨ts,lexes⟩ := lexes_exists text
  obtain ⟨derives,cuts,rfl⟩ := parsecmd_sound stored lexes parsed
  have apart : ∀ a ∈ cmd.words, ∀ b ∈ cmd.words, a.eq < b.q ∨ b.eq ≤ a.eq := by
    intro a member b member'
    by_contra inside
    have word := (cuts b member').inside a.eq (by omega) (by omega)
    cases (cuts a member).ends with
    | inl last =>
      have bound := (cuts b member').bound
      omega
    | inr stops => exact stops word
  refine ⟨⟨ts,lexes,?_⟩,?_,?_,apart,?_⟩
  · rw [← words_map]
    exact derives.texts
  · intro a member
    refine (cuts a member).stored ?_ ?_ ?_
    · intro i inside
      have byte := stored.bytes i inside.le
      rw [Nat.zero_add] at byte
      rw [byte]
      exact cstring_ne_zero stored.plain inside
    · intro i after before
      rw [nulterminate_eq,if_neg]
      intro hit
      obtain ⟨b,member',rfl⟩ := List.mem_map.mp hit
      have between := apart b member' a member
      omega
    · rw [nulterminate_eq,if_pos (List.mem_map_of_mem member)]
  · intro a member
    cases (cuts a member).ends with
    | inl last => exact .inl last
    | inr stops =>
      simp only [isWord,strchr,Bool.and_eq_true,Bool.not_eq_true',decide_eq_false_iff_not,not_and_or,not_not] at stops
      exact .inr stops
  · intro i away
    rw [nulterminate_eq,if_neg]
    intro hit
    obtain ⟨a,member,same⟩ := List.mem_map.mp hit
    exact away a member same.symm

/-- `a<b`, where the terminator of `a` takes the place of the symbol. -/
theorem nulterminate_cuts_input :
    parsecmd (cstring [97,60,98]) 3 = .ok (.redir (.exec [⟨0,1⟩]) ⟨⟨2,3⟩,0,0⟩,update (update (cstring [97,60,98]) 1 0) 3 0) ∧
      Stored (update (update (cstring [97,60,98]) 1 0) 3 0) 0 [97] := by
  have stored : Stored (cstring [97,60,98]) 0 [97,60,98] := ⟨by decide,fun i _ => by rw [Nat.zero_add]⟩
  have parsed : parsecmd (cstring [97,60,98]) 3 =
      .ok (.redir (.exec [⟨0,1⟩]) ⟨⟨2,3⟩,0,0⟩,update (update (cstring [97,60,98]) 1 0) 3 0) := rfl
  exact ⟨parsed,(nulterminate_cuts [97,60,98] _ stored _ _ parsed).2.1 ⟨0,1⟩ (by decide)⟩

end Xv6Ext2.Sh
