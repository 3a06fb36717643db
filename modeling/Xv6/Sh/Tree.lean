import Xv6.Sh.Lexer

/-!
The commands that the nodes of the parser hold. `S q eq w` says in what sense a node that points to `q` and `eq` holds
the word `w`.
-/

namespace Xv6.Sh

variable {S S' : Nat → Nat → Word → Prop} {heap heap' heap'' : List Node} {cmd cmd' p q eq : Nat} {a b : Ast} {w : Word}
  {ws : List Word} {rs : List Redir} {argv eargv : List Nat}

inductive Args (S : Nat → Nat → Word → Prop) : List Nat → List Nat → List Word → Prop where
  | nil : Args S [] [] []
  | cons {q eq : Nat} {w : Word} {argv eargv : List Nat} {ws : List Word} (hw : S q eq w) (h : Args S argv eargv ws)
    : Args S (q :: argv) (eq :: eargv) (w :: ws)

-- A node points to older nodes.
inductive Tree (S : Nat → Nat → Word → Prop) (heap : List Node) : Nat → Ast → Prop where
  | exec {p : Nat} {argv eargv : List Nat} {ws : List Word} (hnode : heap[p]? = some (.exec argv eargv))
      (hargs : Args S argv eargv ws)
    : Tree S heap p (.exec ws)
  | redir {p cmd q eq : Nat} {a : Ast} {r : Redir} (hnode : heap[p]? = some (.redir cmd q eq r.mode r.fd)) (hlt : cmd < p)
      (hfile : S q eq r.file) (h : Tree S heap cmd a)
    : Tree S heap p (.redir a r)
  | pipe {p left right : Nat} {a b : Ast} (hnode : heap[p]? = some (.pipe left right)) (hleft : left < p)
      (hright : right < p) (ha : Tree S heap left a) (hb : Tree S heap right b)
    : Tree S heap p (.pipe a b)
  | list {p left right : Nat} {a b : Ast} (hnode : heap[p]? = some (.list left right)) (hleft : left < p)
      (hright : right < p) (ha : Tree S heap left a) (hb : Tree S heap right b)
    : Tree S heap p (.list a b)
  | back {p cmd : Nat} {a : Ast} (hnode : heap[p]? = some (.back cmd)) (hlt : cmd < p) (h : Tree S heap cmd a)
    : Tree S heap p (.back a)

-- `p` is `cmd` behind the redirections.
inductive Chain (S : Nat → Nat → Word → Prop) (heap : List Node) (cmd : Nat) : Nat → List Redir → Prop where
  | nil : Chain S heap cmd cmd []
  | snoc {p c q eq : Nat} {r : Redir} {rs : List Redir} (hnode : heap[p]? = some (.redir c q eq r.mode r.fd)) (hlt : c < p)
      (hfile : S q eq r.file) (h : Chain S heap cmd c rs)
    : Chain S heap cmd p (rs ++ [r])

-- The nodes other than `except` stay.
def Keeps (except : Option Nat) (heap heap' : List Node) : Prop :=
  ∀ p node, some p ≠ except → heap[p]? = some node → heap'[p]? = some node

theorem Keeps.refl (except : Option Nat) (heap : List Node) : Keeps except heap heap :=
  fun _ _ _ h => h

theorem Keeps.trans {except : Option Nat} (h : Keeps except heap heap') (h' : Keeps except heap' heap'')
    : Keeps except heap heap'' :=
  fun p node hne hnode => h' p node hne (h p node hne hnode)

theorem Keeps.weaken (h : Keeps none heap heap') (except : Option Nat) : Keeps except heap heap' :=
  fun p node _ hnode => h p node (by simp) hnode

theorem keeps_append (heap : List Node) (node : Node) : Keeps none heap (heap ++ [node]) := by
  intro p n _ hnode
  obtain ⟨hlt, -⟩ := List.getElem?_eq_some_iff.mp hnode
  rw [List.getElem?_append_left hlt, hnode]

theorem getElem?_append_length (heap : List Node) (node : Node) : (heap ++ [node])[heap.length]? = some node := by
  simp

theorem Args.snoc (h : Args S argv eargv ws) (hw : S q eq w) : Args S (argv ++ [q]) (eargv ++ [eq]) (ws ++ [w]) := by
  induction h with
  | nil => exact .cons hw .nil
  | cons hw' h ih => exact .cons hw' ih

theorem Tree.lt_length (h : Tree S heap p a) : p < heap.length := by
  cases h with
  | exec hnode | redir hnode | pipe hnode | list hnode | back hnode => exact (List.getElem?_eq_some_iff.mp hnode).1

theorem Tree.keeps (h : Tree S heap p a) (hkeeps : Keeps none heap heap') : Tree S heap' p a := by
  induction h with
  | exec hnode hargs => exact .exec (hkeeps _ _ (by simp) hnode) hargs
  | redir hnode hlt hfile _ ih => exact .redir (hkeeps _ _ (by simp) hnode) hlt hfile ih
  | pipe hnode hleft hright _ _ iha ihb => exact .pipe (hkeeps _ _ (by simp) hnode) hleft hright iha ihb
  | list hnode hleft hright _ _ iha ihb => exact .list (hkeeps _ _ (by simp) hnode) hleft hright iha ihb
  | back hnode hlt _ ih => exact .back (hkeeps _ _ (by simp) hnode) hlt ih

theorem Chain.le (h : Chain S heap cmd p rs) : cmd ≤ p := by
  induction h with
  | nil => exact Nat.le_refl cmd
  | snoc _ hlt _ _ ih => omega

theorem Chain.keeps (h : Chain S heap cmd p rs) (hkeeps : Keeps (some cmd) heap heap') : Chain S heap' cmd p rs := by
  induction h with
  | nil => exact .nil
  | @snoc p c q eq r rs hnode hlt hfile h ih =>
    refine .snoc (hkeeps _ _ ?_ hnode) hlt hfile ih
    have := h.le
    intro heq
    cases heq
    omega

theorem Chain.lt_length (h : Chain S heap cmd p rs) (hcmd : cmd < heap.length) : p < heap.length := by
  cases h with
  | nil => exact hcmd
  | snoc hnode _ _ _ => exact (List.getElem?_eq_some_iff.mp hnode).1

theorem Chain.tree (h : Chain S heap cmd p rs) (hcmd : Tree S heap cmd a) : Tree S heap p (wrap a rs) := by
  induction h with
  | nil => exact hcmd
  | snoc hnode hlt hfile _ ih =>
    rw [wrap, List.foldl_append]
    exact .redir hnode hlt hfile ih

end Xv6.Sh
