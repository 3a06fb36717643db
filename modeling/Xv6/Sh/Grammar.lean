import Xv6.Sh.Impl

/-!
The language of the shell: the tokens of a line, the grammar and the commands that it denotes.

```
line  := pipe '&'* [';' line]
pipe  := exec ['|' pipe]
exec  := '(' line ')' redir* | redir* (word redir*)*    with fewer than `MAXARGS` words
redir := ('<' | '>' | '>>') word
```
-/

namespace Xv6.Sh

abbrev Word :=
  List Char

inductive Token where
  | bar
  | lpar
  | rpar
  | semi
  | amp
  | lt
  | gt
  | gtgt
  | word (w : Word)
  deriving DecidableEq, Repr

def wordChar (c : Char) : Bool :=
  c ∉ whitespace ∧ c ∉ symbols

def tokens : List Char → List Token
  | [] => []
  | '|' :: cs => .bar :: tokens cs
  | '(' :: cs => .lpar :: tokens cs
  | ')' :: cs => .rpar :: tokens cs
  | ';' :: cs => .semi :: tokens cs
  | '&' :: cs => .amp :: tokens cs
  | '<' :: cs => .lt :: tokens cs
  | '>' :: '>' :: cs => .gtgt :: tokens cs
  | '>' :: cs => .gt :: tokens cs
  | c :: cs =>
    if c ∈ whitespace then tokens cs
    else .word (c :: cs.takeWhile wordChar) :: tokens (cs.dropWhile wordChar)
termination_by cs => cs.length
decreasing_by
  all_goals simp only [List.length_cons]
  all_goals try omega
  have := (List.dropWhile_suffix wordChar (l := cs)).length_le
  omega

structure Redir where
  file : Word
  mode : Nat
  fd : Nat
  deriving DecidableEq, Repr

inductive Ast where
  | exec (argv : List Word)
  | redir (cmd : Ast) (r : Redir)
  | pipe (left right : Ast)
  | list (left right : Ast)
  | back (cmd : Ast)
  deriving Repr

-- What stands in front of the file of a redirection.
def redirOf (w : Word) : Token → Option Redir
  | .lt => some ⟨w, O_RDONLY, 0⟩
  | .gt | .gtgt => some ⟨w, O_WRONLY ||| O_CREATE, 1⟩
  | _ => none

inductive Redirs : List Token → List Redir → Prop where
  | nil : Redirs [] []
  | cons {t : Token} {w : Word} {r : Redir} {ts : List Token} {rs : List Redir} (hr : redirOf w t = some r)
      (hrs : Redirs ts rs)
    : Redirs (t :: .word w :: ts) (r :: rs)

inductive Words : List Token → List Word → List Redir → Prop where
  | nil : Words [] [] []
  | cons {w : Word} {ts ts' : List Token} {rs rs' : List Redir} {ws : List Word} (hrs : Redirs ts rs)
      (hws : Words ts' ws rs')
    : Words (.word w :: ts ++ ts') (w :: ws) (rs ++ rs')

-- The first redirection is the innermost one.
def wrap (cmd : Ast) (rs : List Redir) : Ast :=
  rs.foldl .redir cmd

def backs (n : Nat) (cmd : Ast) : Ast :=
  Nat.repeat .back n cmd

inductive Nonterminal where
  | line
  | pipe
  | exec

inductive Derives : Nonterminal → List Token → Ast → Prop where
  | line {ts : List Token} {cmd : Ast} (n : Nat) (hpipe : Derives .pipe ts cmd)
    : Derives .line (ts ++ List.replicate n .amp) (backs n cmd)
  | seq {ts ts' : List Token} {cmd cmd' : Ast} (n : Nat) (hpipe : Derives .pipe ts cmd) (hline : Derives .line ts' cmd')
    : Derives .line (ts ++ List.replicate n .amp ++ .semi :: ts') (.list (backs n cmd) cmd')
  | pipe {ts : List Token} {cmd : Ast} (hexec : Derives .exec ts cmd)
    : Derives .pipe ts cmd
  | bar {ts ts' : List Token} {cmd cmd' : Ast} (hexec : Derives .exec ts cmd) (hpipe : Derives .pipe ts' cmd')
    : Derives .pipe (ts ++ .bar :: ts') (.pipe cmd cmd')
  | block {ts ts' : List Token} {cmd : Ast} {rs : List Redir} (hline : Derives .line ts cmd) (hrs : Redirs ts' rs)
    : Derives .exec (.lpar :: ts ++ .rpar :: ts') (wrap cmd rs)
  | exec {ts ts' : List Token} {rs rs' : List Redir} {ws : List Word} (hrs : Redirs ts rs) (hws : Words ts' ws rs')
      (hlen : ws.length < MAXARGS)
    : Derives .exec (ts ++ ts') (wrap (.exec ws) (rs ++ rs'))

end Xv6.Sh
