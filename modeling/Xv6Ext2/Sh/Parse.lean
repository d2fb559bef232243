import Xv6Ext2.Lib.Exec
import Xv6Ext2.Lib.Stored

/-! The parser of `sh.c`. The line starts at index 0 of a buffer and `es` is the index of its NUL; the cursor `*ps` is the state
that the functions pass along. `fuel` bounds the rounds of a loop and the depth of the calls. -/
namespace Xv6Ext2.Sh
open Lib Function

abbrev Buffer := Nat → UInt8

/-- `" \t\r\n\v"` -/
def whitespace : List UInt8 := [32,9,13,10,11]

/-- `"<|>&;()"` -/
def symbols : List UInt8 := [60,124,62,38,59,40,41]

/-- `strchr(s, c) != 0`; the NUL behind `s` is not found. -/
def strchr (s : List UInt8) (c : UInt8) : Bool := c ∈ s

inductive Stop where
  | panic (message : String)
  | diverges
  deriving DecidableEq

abbrev P := Exec Stop Nat

structure Span where
  q : Nat
  eq : Nat
  deriving DecidableEq

/-- `file`, `mode` and `fd` of a `struct redircmd`. -/
structure Redir (α : Type) where
  file : α
  mode : Nat
  fd : Nat
  deriving DecidableEq

/-- `struct cmd`; `argv` is without the null pointer at its end. -/
inductive Cmd (α : Type) where
  | exec (argv : List α)
  | redir (cmd : Cmd α) (r : Redir α)
  | pipe (left right : Cmd α)
  | list (left right : Cmd α)
  | back (cmd : Cmd α)
  deriving DecidableEq

/-- `MAXARGS` -/
def maxArgs : Nat := 10

def wrap {α : Type} (cmd : Cmd α) (rs : List (Redir α)) : Cmd α := rs.foldl .redir cmd

section

variable (mem : Buffer) (es : Nat)

/-- `while(s < es && go(*s)) s++`, with as many bytes before `es` as the first argument says. -/
def scan (go : UInt8 → Bool) : Nat → Nat → Nat
  | 0, s => s
  | n + 1, s => if go (mem s) then scan go n (s + 1) else s

def skipSpace (s : Nat) : Nat := scan mem (strchr whitespace) (es - s) s

def isWord (c : UInt8) : Bool := !strchr whitespace c && !strchr symbols c

/-- The `switch` of `gettoken`: what it returns, and where the token ends. -/
def lexeme (q : Nat) : UInt8 × Nat :=
  if mem q = 0 then (0,q)
  -- '|', '(', ')', ';', '&' and '<'
  else if mem q ∈ [124,40,41,59,38,60] then (mem q,q + 1)
  else if mem q = 62 then if mem (q + 1) = 62 then (43,q + 2) else (62,q + 1)
  else (97,scan mem isWord (es - q) q)

def gettoken : P (UInt8 × Span) := fun s =>
  let q := skipSpace mem es s
  let (ret,eq) := lexeme mem es q
  .ok ((ret,⟨q,eq⟩),skipSpace mem es eq)

def peek (toks : List UInt8) : P Bool := fun s =>
  let s := skipSpace mem es s
  .ok (decide (mem s ≠ 0) && strchr toks (mem s),s)

/-- The `switch` of `parseredirs`, with `O_RDONLY` and `O_WRONLY|O_CREATE`. -/
def redircmd (tok : UInt8) (file : Span) : List (Redir Span) :=
  if tok = 60 then [⟨file,0,0⟩] else if tok = 62 then [⟨file,0x201,1⟩] else if tok = 43 then [⟨file,0x201,1⟩] else []

/-- `parseredirs`, as the redirections that it puts around its command. -/
def parseredirs : Nat → P (List (Redir Span))
  | 0 => fault .diverges
  | fuel + 1 => do
    if ← peek mem es [60,62] then
      let tok ← gettoken mem es
      let file ← gettoken mem es
      if file.1 ≠ 97 then fault (.panic "missing file for redirection")
      else
        let rest ← parseredirs fuel
        return redircmd tok.1 file.2 ++ rest
    else return []

/-- The loop of `parseexec` from `argc` on: the arguments, and the redirections between them. The command that the arguments
go to may have redirections around it by then. -/
def parseargs : Nat → Nat → P (List Span × List (Redir Span))
  | 0, _ => fault .diverges
  | fuel + 1, argc => do
    if ← peek mem es [124,41,38,59] then return ([],[])
    else
      let tok ← gettoken mem es
      if tok.1 = 0 then return ([],[])
      else if tok.1 ≠ 97 then fault (.panic "syntax")
      else if argc + 1 ≥ maxArgs then fault (.panic "too many args")
      else
        let redirs ← parseredirs mem es (es + 1)
        let rest ← parseargs fuel (argc + 1)
        return (tok.2 :: rest.1,redirs ++ rest.2)

/-- The first loop of `parseline`. -/
def parsebacks : Nat → Cmd Span → P (Cmd Span)
  | 0, _ => fault .diverges
  | fuel + 1, cmd => do
    if ← peek mem es [38] then
      let _ ← gettoken mem es
      parsebacks fuel (.back cmd)
    else return cmd

mutual

def parseline : Nat → P (Cmd Span)
  | 0 => fault .diverges
  | fuel + 1 => do
    let cmd ← parsepipe fuel
    let cmd ← parsebacks mem es (es + 1) cmd
    if ← peek mem es [59] then
      let _ ← gettoken mem es
      let rest ← parseline fuel
      return .list cmd rest
    else return cmd

def parsepipe : Nat → P (Cmd Span)
  | 0 => fault .diverges
  | fuel + 1 => do
    let cmd ← parseexec fuel
    if ← peek mem es [124] then
      let _ ← gettoken mem es
      let rest ← parsepipe fuel
      return .pipe cmd rest
    else return cmd

def parseblock : Nat → P (Cmd Span)
  | 0 => fault .diverges
  | fuel + 1 => do
    if !(← peek mem es [40]) then fault (.panic "parseblock")
    else
      let _ ← gettoken mem es
      let cmd ← parseline fuel
      if !(← peek mem es [41]) then fault (.panic "syntax - missing )")
      else
        let _ ← gettoken mem es
        let redirs ← parseredirs mem es (es + 1)
        return wrap cmd redirs

def parseexec : Nat → P (Cmd Span)
  | 0 => fault .diverges
  | fuel + 1 => do
    if ← peek mem es [40] then parseblock fuel
    else
      let redirs ← parseredirs mem es (es + 1)
      let rest ← parseargs mem es (es + 1) 0
      return wrap (.exec rest.1) (redirs ++ rest.2)

end

/-- `parsecmd` up to `nulterminate`. -/
def parsewhole : P (Cmd Span) := do
  let cmd ← parseline mem es (4 * es + 4)
  let _ ← peek mem es []
  (fun s => if s ≠ es then .error (.panic "syntax") else .ok (cmd,s))

end

def nulterminate : Cmd Span → Buffer → Buffer
  | .exec argv, mem => argv.foldl (fun mem a => update mem a.eq 0) mem
  | .redir cmd r, mem => update (nulterminate cmd mem) r.file.eq 0
  | .pipe left right, mem => nulterminate right (nulterminate left mem)
  | .list left right, mem => nulterminate right (nulterminate left mem)
  | .back cmd, mem => nulterminate cmd mem

/-- `parsecmd` of a line with its NUL at `es`, which is `s + strlen(s)`: the command, and the buffer that it leaves. -/
def parsecmd (mem : Buffer) (es : Nat) : Except Stop (Cmd Span × Buffer) :=
  match parsewhole mem es 0 with
  | .ok (cmd,_) => .ok (cmd,nulterminate cmd mem)
  | .error e => .error e

end Xv6Ext2.Sh
