/-!
`grep.c`. A C string is the list of its bytes without the zero that ends it, so `buf` is the list of the `m` bytes that it
holds, with `buf[m] = 0`. The results of `read` are given one after the other, and a read that returns 0 ends the list.
-/

namespace Xv6.Grep

def NEWLINE : UInt8 := 10

def DOLLAR : UInt8 := 36

def STAR : UInt8 := 42

def DOT : UInt8 := 46

def CARET : UInt8 := 94

-- The loop of `matchstar`, where `matchhere` has the rest of the expression.
def matchstar (matchhere : List UInt8 → Bool) (c : UInt8) : List UInt8 → Bool
  | [] => matchhere []
  | t :: text => matchhere (t :: text) || ((t = c || c = DOT) && matchstar matchhere c text)

def matchhere : List UInt8 → List UInt8 → Bool
  | [], _ => true
  | [c], text =>
    if c = DOLLAR then text.isEmpty
    else
      match text with
      | [] => false
      | t :: _ => c = DOT || c = t
  | c :: d :: re, text =>
    if d = STAR then matchstar (matchhere re) c text
    else
      match text with
      | [] => false
      | t :: text => (c = DOT || c = t) && matchhere (d :: re) text

-- The loop of `match` over the positions in the text.
def matchLoop (re : List UInt8) : List UInt8 → Bool
  | [] => matchhere re []
  | t :: text => matchhere re (t :: text) || matchLoop re text

-- `match`
def matchRe (re text : List UInt8) : Bool :=
  match re with
  | c :: re' => if c = CARET then matchhere re' text else matchLoop re text
  | [] => matchLoop re text

-- The offset of the first `c` in front of a zero.
def strchr (c : UInt8) : List UInt8 → Option Nat
  | [] => none
  | s :: l => if s = 0 then none else if s = c then some 0 else (strchr c l).map (· + 1)

-- The inner loop of `grep`, which returns what it writes and the string at `p` behind it. It does not take more rounds
-- than there are bytes.
def grepLines (pattern : List UInt8) : Nat → List UInt8 → List (List UInt8) × List UInt8
  | 0, p => ([], p)
  | fuel + 1, p =>
    match strchr NEWLINE p with
    | none => ([], p)
    | some q =>
      let (lines, rest) := grepLines pattern fuel (p.drop (q + 1))
      (if matchRe pattern (p.take q) then p.take (q + 1) :: lines else lines, rest)

-- A round of the outer loop with the bytes that `read` has put behind `buf`: what it writes and what is left in `buf`.
def grepRound (pattern buf bytes : List UInt8) : List (List UInt8) × List UInt8 :=
  let buf := buf ++ bytes
  let (lines, p) := grepLines pattern buf.length buf
  (lines, if p.length = buf.length then [] else p)

def grep (pattern : List UInt8) : List UInt8 → List (List UInt8) → List (List UInt8)
  | _, [] => []
  | buf, bytes :: reads => (grepRound pattern buf bytes).1 ++ grep pattern (grepRound pattern buf bytes).2 reads

-- `sizeof(buf)`
def BUFSIZE : Nat := 1024

end Xv6.Grep
