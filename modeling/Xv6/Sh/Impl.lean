import Mathlib.Logic.Function.Basic

/-!
The parser of `sh.c`. A pointer into the line is an address of the memory, and a `struct cmd *` the place of the node in
the list of the nodes that have been allocated. `argv` and `eargv` hold the pointers before the final 0.
-/

namespace Xv6.Sh

abbrev Mem :=
  Nat → Char

-- Also `execcmd`, which is an `exec` without words.
inductive Node where
  | exec (argv eargv : List Nat)
  | redir (cmd file efile mode fd : Nat)
  | pipe (left right : Nat)
  | list (left right : Nat)
  | back (cmd : Nat)
  deriving DecidableEq, Repr

-- `fuel` says that a loop or a recursion was cut off.
inductive Stop where
  | panic (msg : String)
  | fuel
  deriving DecidableEq, Repr

-- The cursor `*ps` and the nodes.
structure Ctx where
  ps : Nat
  heap : List Node
  deriving DecidableEq, Repr

def MAXARGS : Nat := 10

def O_RDONLY : Nat := 0x000

def O_WRONLY : Nat := 0x001

def O_CREATE : Nat := 0x200

def whitespace : List Char :=
  [' ', '\t', '\r', '\n', '\x0b']

def symbols : List Char :=
  ['<', '|', '>', '&', ';', '(', ')']

variable (mem : Mem) (es : Nat)

-- The loop over whitespace.
def skip (s : Nat) : Nat :=
  if s < es ∧ mem s ∈ whitespace then skip (s + 1) else s
termination_by es - s

-- The loop over a word.
def scan (s : Nat) : Nat :=
  if s < es ∧ mem s ∉ whitespace ∧ mem s ∉ symbols then scan (s + 1) else s
termination_by es - s

structure Lexeme where
  ret : Char
  q : Nat
  eq : Nat
  ps : Nat
  deriving DecidableEq, Repr

-- The `switch`, with the end of the token.
def switch (s : Nat) : Char × Nat :=
  match mem s with
  | '\x00' => ('\x00', s)
  | '|' | '(' | ')' | ';' | '&' | '<' => (mem s, s + 1)
  | '>' => if mem (s + 1) = '>' then ('+', s + 2) else ('>', s + 1)
  | _ => ('a', scan mem es s)

def gettoken (s : Nat) : Lexeme where
  ret := (switch mem es (skip mem es s)).1
  q := skip mem es s
  eq := (switch mem es (skip mem es s)).2
  ps := skip mem es (switch mem es (skip mem es s)).2

def peek (s : Nat) (toks : List Char) : Nat × Bool :=
  (skip mem es s, mem (skip mem es s) ≠ '\x00' ∧ mem (skip mem es s) ∈ toks)

def Ctx.alloc (c : Ctx) (node : Node) : Nat × Ctx :=
  (c.heap.length, { c with heap := c.heap ++ [node] })

def Ctx.seek (c : Ctx) (ps : Nat) : Ctx :=
  { c with ps := ps }

def redirect (cmd q eq : Nat) (tok : Char) (c : Ctx) : Nat × Ctx :=
  match tok with
  | '<' => c.alloc (.redir cmd q eq O_RDONLY 0)
  | '>' => c.alloc (.redir cmd q eq (O_WRONLY ||| O_CREATE) 1)
  | '+' => c.alloc (.redir cmd q eq (O_WRONLY ||| O_CREATE) 1)
  | _ => (cmd, c)

def parseredirs : Nat → Nat → Ctx → Except Stop (Nat × Ctx)
  | 0, _, _ => .error .fuel
  | fuel + 1, cmd, c =>
    let (s, b) := peek mem es c.ps ['<', '>']
    if b then
      let tok := gettoken mem es s
      let file := gettoken mem es tok.ps
      if file.ret ≠ 'a' then .error (.panic "missing file for redirection")
      else
        let (cmd, c) := redirect cmd file.q file.eq tok.ret (c.seek file.ps)
        parseredirs fuel cmd c
    else .ok (cmd, c.seek s)

-- `cmd->argv[argc] = q; cmd->eargv[argc] = eq;`
def Ctx.addArg (c : Ctx) (cmd q eq : Nat) : Ctx :=
  match c.heap[cmd]? with
  | some (.exec argv eargv) => { c with heap := c.heap.set cmd (.exec (argv ++ [q]) (eargv ++ [eq])) }
  | _ => c

-- The loop of `parseexec`; `cmd` is the node that it fills and `ret` the one that it returns.
def parseargs : Nat → Nat → Nat → Nat → Ctx → Except Stop (Nat × Ctx)
  | 0, _, _, _, _ => .error .fuel
  | fuel + 1, cmd, ret, argc, c =>
    let (s, b) := peek mem es c.ps ['|', ')', '&', ';']
    if b then .ok (ret, c.seek s)
    else
      let tok := gettoken mem es s
      if tok.ret = '\x00' then .ok (ret, c.seek tok.ps)
      else if tok.ret ≠ 'a' then .error (.panic "syntax")
      else if argc + 1 ≥ MAXARGS then .error (.panic "too many args")
      else do
        let (ret, c) ← parseredirs mem es fuel ret ((c.seek tok.ps).addArg cmd tok.q tok.eq)
        parseargs fuel cmd ret (argc + 1) c

-- The loop of `parseline`.
def parseback : Nat → Nat → Ctx → Except Stop (Nat × Ctx)
  | 0, _, _ => .error .fuel
  | fuel + 1, cmd, c =>
    let (s, b) := peek mem es c.ps ['&']
    if b then
      let (cmd, c) := (c.seek (gettoken mem es s).ps).alloc (.back cmd)
      parseback fuel cmd c
    else .ok (cmd, c.seek s)

mutual

def parseline : Nat → Ctx → Except Stop (Nat × Ctx)
  | 0, _ => .error .fuel
  | fuel + 1, c => do
    let (cmd, c) ← parsepipe fuel c
    let (cmd, c) ← parseback mem es fuel cmd c
    let (s, b) := peek mem es c.ps [';']
    if b then
      let (right, c) ← parseline fuel (c.seek (gettoken mem es s).ps)
      return c.alloc (.list cmd right)
    else return (cmd, c.seek s)

def parsepipe : Nat → Ctx → Except Stop (Nat × Ctx)
  | 0, _ => .error .fuel
  | fuel + 1, c => do
    let (cmd, c) ← parseexec fuel c
    let (s, b) := peek mem es c.ps ['|']
    if b then
      let (right, c) ← parsepipe fuel (c.seek (gettoken mem es s).ps)
      return c.alloc (.pipe cmd right)
    else return (cmd, c.seek s)

def parseexec : Nat → Ctx → Except Stop (Nat × Ctx)
  | 0, _ => .error .fuel
  | fuel + 1, c =>
    let (s, b) := peek mem es c.ps ['(']
    if b then parseblock fuel (c.seek s)
    else do
      let (cmd, c) := (c.seek s).alloc (.exec [] [])
      let (ret, c) ← parseredirs mem es fuel cmd c
      parseargs mem es fuel cmd ret 0 c

def parseblock : Nat → Ctx → Except Stop (Nat × Ctx)
  | 0, _ => .error .fuel
  | fuel + 1, c =>
    let (s, b) := peek mem es c.ps ['(']
    if !b then .error (.panic "parseblock")
    else do
      let (cmd, c) ← parseline fuel (c.seek (gettoken mem es s).ps)
      let (s, b) := peek mem es c.ps [')']
      if !b then .error (.panic "syntax - missing )")
      else parseredirs mem es fuel cmd (c.seek (gettoken mem es s).ps)

end

def nulterminate (heap : List Node) : Nat → Nat → Mem → Mem
  | 0, _, mem => mem
  | fuel + 1, cmd, mem =>
    match heap[cmd]? with
    | some (.exec _ eargv) => eargv.foldl (fun mem eq => Function.update mem eq '\x00') mem
    | some (.redir cmd _ efile _ _) => Function.update (nulterminate heap fuel cmd mem) efile '\x00'
    | some (.pipe left right) | some (.list left right) =>
      nulterminate heap fuel right (nulterminate heap fuel left mem)
    | some (.back cmd) => nulterminate heap fuel cmd mem
    | none => mem

-- The command, its nodes and the memory in which its words are strings; `es` is `s + strlen(s)`.
def parsecmd (fuel s : Nat) : Except Stop (Nat × List Node × Mem) := do
  let (cmd, c) ← parseline mem es fuel ⟨s, []⟩
  let (s, _) := peek mem es c.ps []
  if s ≠ es then .error (.panic "syntax")
  else return (cmd, c.heap, nulterminate c.heap c.heap.length cmd mem)

end Xv6.Sh
