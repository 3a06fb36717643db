import Xv6.Sh.Descent
import Xv6.Sh.Tree

/-!
The parser goes in lockstep with the descent over the tokens of the line.
-/

namespace Xv6.Sh

open Outcome

variable {mem : Mem} {es s fuel cmd ret argc : Nat} {toks : List Char} {c : Ctx} {t : Token} {ts : List Token}
  {rs : List Redir} {ws : List Word} {argv eargv : List Nat}

-- The tokens that are left at the cursor.
structure At (mem : Mem) (es s : Nat) (ts : List Token) : Prop where
  inLine : InLine mem es s
  rest : rest mem es s = ts

theorem At.peek (h : At mem es s ts) (toks : List Char) : At mem es (peek mem es s toks).1 ts :=
  ⟨skip_inLine h.inLine, (rest_skip h.inLine).trans h.rest⟩

theorem At.peek_iff (h : At mem es s ts) (htoks : ∀ c ∈ toks, c ∈ symbols)
    : (Sh.peek mem es s toks).2 = true ↔ ∃ t ∈ ts.head?, ∃ c ∈ t.symbol, c ∈ toks := by
  have := (peek_spec h.inLine htoks).2.2
  rwa [h.rest] at this

theorem At.gettoken (h : At mem es s (t :: ts))
    : (gettoken mem es s).ret = t.ret ∧ At mem es (gettoken mem es s).ps ts ∧
      ∀ w, t = .word w → Span mem (gettoken mem es s).q (gettoken mem es s).eq w := by
  obtain ⟨hret, hrest, hin, hspan⟩ := gettoken_cons h.inLine h.rest
  exact ⟨hret, ⟨hin, hrest⟩, hspan⟩

theorem At.gettoken_nil (h : At mem es s [])
    : (Sh.gettoken mem es s).ret = '\x00' ∧ At mem es (Sh.gettoken mem es s).ps [] := by
  obtain ⟨hret, hps⟩ := Sh.gettoken_nil h.inLine h.rest
  refine ⟨hret, ?_⟩
  rw [hps]
  constructor
  . exact h.inLine.mono h.inLine.le (Nat.le_refl es)
  . rw [Sh.rest, text_self, tokens]

theorem At.peek_symbol (h : At mem es s ts) (ht : ∀ t' : Token, t.ret ∈ t'.symbol ↔ t' = t)
    : (Sh.peek mem es s [t.ret]).2 = true ↔ ts.head? = some t := by
  have hself : t.ret ∈ t.symbol := (ht t).mpr rfl
  have hsymbol : t.ret ∈ symbols := by
    cases t with
    | word w => cases hself
    | gtgt => simp [Token.ret, Token.symbol] at hself
    | _ => decide
  rw [h.peek_iff (by simpa using hsymbol)]
  constructor
  . rintro ⟨t', ht', c, hc, hmem⟩
    rw [List.mem_singleton.mp hmem] at hc
    rw [← (ht t').mp hc]
    exact ht'
  . intro hhead
    exact ⟨t, hhead, t.ret, hself, List.mem_singleton_self _⟩

theorem amp_symbol (t : Token) : Token.amp.ret ∈ t.symbol ↔ t = .amp := by
  cases t <;> simp [Token.ret, Token.symbol]

theorem semi_symbol (t : Token) : Token.semi.ret ∈ t.symbol ↔ t = .semi := by
  cases t <;> simp [Token.ret, Token.symbol]

theorem bar_symbol (t : Token) : Token.bar.ret ∈ t.symbol ↔ t = .bar := by
  cases t <;> simp [Token.ret, Token.symbol]

theorem lpar_symbol (t : Token) : Token.lpar.ret ∈ t.symbol ↔ t = .lpar := by
  cases t <;> simp [Token.ret, Token.symbol]

theorem rpar_symbol (t : Token) : Token.rpar.ret ∈ t.symbol ↔ t = .rpar := by
  cases t <;> simp [Token.ret, Token.symbol]

theorem At.peek_redirects (h : At mem es s ts)
    : (Sh.peek mem es s ['<', '>']).2 = ts.head?.any Descent.redirects := by
  rw [Bool.eq_iff_iff, h.peek_iff (by simp [symbols])]
  cases ts with
  | nil => simp
  | cons t ts => cases t <;> simp [Token.ret, Token.symbol, Descent.redirects]

theorem At.peek_ends (h : At mem es s ts)
    : Descent.ends ts = true ↔ ts = [] ∨ (Sh.peek mem es s ['|', ')', '&', ';']).2 = true := by
  rw [h.peek_iff (by simp [symbols])]
  cases ts with
  | nil => simp [Descent.ends]
  | cons t ts => cases t <;> simp [Token.ret, Token.symbol, Descent.ends]

structure Redirected (mem : Mem) (es cmd : Nat) (rs : List Redir) (c : Ctx) (x : Nat × Ctx) (y : List Redir × List Token)
    : Prop where
  rest : At mem es x.2.ps y.2
  keeps : Keeps none c.heap x.2.heap
  chain : Chain (Span mem) x.2.heap cmd x.1 (rs ++ y.1)

theorem redirect_spec {w : Word} {r : Redir} {q eq : Nat} (hr : redirOf w t = some r) (hw : Span mem q eq w)
    (hchain : Chain (Span mem) c.heap cmd ret rs) (hcmd : cmd < c.heap.length)
    : ∃ ret' heap, redirect ret q eq t.ret c = (ret', ⟨c.ps, heap⟩) ∧ Keeps none c.heap heap ∧ cmd < heap.length ∧
        Chain (Span mem) heap cmd ret' (rs ++ [r]) := by
  have halloc : ∀ mode fd, r = ⟨w, mode, fd⟩ →
      Keeps none c.heap (c.heap ++ [Node.redir ret q eq mode fd]) ∧
        cmd < (c.heap ++ [Node.redir ret q eq mode fd]).length ∧
        Chain (Span mem) (c.heap ++ [Node.redir ret q eq mode fd]) cmd c.heap.length (rs ++ [r]) := by
    rintro mode fd rfl
    have hkeeps := keeps_append c.heap (.redir ret q eq mode fd)
    refine ⟨hkeeps, ?_, ?_⟩
    . rw [List.length_append]
      omega
    . exact .snoc (getElem?_append_length _ _) (hchain.lt_length hcmd) hw (hchain.keeps (hkeeps.weaken _))
  cases t with
  | lt =>
    cases hr
    exact ⟨_, _, rfl, halloc _ _ rfl⟩
  | gt =>
    cases hr
    exact ⟨_, _, rfl, halloc _ _ rfl⟩
  | gtgt =>
    cases hr
    exact ⟨_, _, rfl, halloc _ _ rfl⟩
  | _ => cases hr

theorem redirect_none {ts : List Token} (hred : ts.head?.any Descent.redirects) (h : Descent.redirect ts = none)
    : ∃ t us, ts = t :: us ∧ ∀ w, us.head? ≠ some (.word w) := by
  cases ts with
  | nil => cases hred
  | cons t us =>
    refine ⟨t, us, rfl, ?_⟩
    intro w hw
    rw [Descent.eq_cons_of_head? hw] at h
    cases t with
    | lt | gt | gtgt => cases h
    | _ => simp [Descent.redirects] at hred

theorem At.gettoken_ret (h : At mem es s ts)
    : (Sh.gettoken mem es s).ret = 'a' ↔ ∃ w, ts.head? = some (.word w) := by
  cases ts with
  | nil =>
    rw [h.gettoken_nil.1]
    simp
  | cons t ts =>
    rw [h.gettoken.1]
    cases t <;> simp [Token.ret]

theorem parseredirs_agree (h : At mem es c.ps ts) (hchain : Chain (Span mem) c.heap cmd ret rs)
    (hcmd : cmd < c.heap.length)
    : Agree (Redirected mem es cmd rs c) (parseredirs mem es fuel ret c) (Descent.redirs fuel ts) := by
  induction fuel generalizing c ts ret rs with
  | zero => exact .error Stop.fuel
  | succ fuel ih =>
    rw [parseredirs, Descent.redirs]
    dsimp only
    rw [h.peek_redirects]
    have hpeek := h.peek ['<', '>']
    split
    . next hred =>
      cases hr : Descent.redirect ts with
      | none =>
        obtain ⟨t, us, rfl, hne⟩ := redirect_none hred hr
        obtain ⟨-, hus, -⟩ := hpeek.gettoken
        rw [if_pos]
        . exact .error _
        . intro hret
          obtain ⟨w, hw⟩ := hus.gettoken_ret.mp hret
          exact hne w hw
      | some r =>
        obtain ⟨t, w, hts, hr'⟩ := Descent.redirect_eq_some hr
        rw [hts] at hpeek
        obtain ⟨hret, hfile, -⟩ := hpeek.gettoken
        obtain ⟨hword, hdrop, hspan⟩ := hfile.gettoken
        have hchain' : Chain (Span mem) (c.seek (Sh.gettoken mem es
            (Sh.gettoken mem es (Sh.peek mem es c.ps ['<', '>']).1).ps).ps).heap cmd ret rs := hchain
        obtain ⟨ret', heap, hredirect, hkeeps, hcmd', hchain''⟩ := redirect_spec hr' (hspan w rfl) hchain' hcmd
        rw [if_neg (by rw [hword]; simp [Token.ret]), hret, hredirect]
        dsimp only
        have hagree := ih (c := ⟨_, heap⟩) hdrop hchain'' hcmd'
        rw [← bind_pure (parseredirs mem es fuel ret' _)]
        apply hagree.bind
        rintro ⟨ret'', c''⟩ ⟨rs', us⟩ hredirected
        apply Agree.ok
        constructor
        . exact hredirected.rest
        . exact hkeeps.trans hredirected.keeps
        . have := hredirected.chain
          rwa [List.append_assoc] at this
    . exact .ok ⟨hpeek, Keeps.refl none _, by rwa [List.append_nil]⟩

structure Filled (mem : Mem) (es cmd : Nat) (ws : List Word) (rs : List Redir) (c : Ctx) (x : Nat × Ctx)
    (y : List Word × List Redir × List Token) : Prop where
  rest : At mem es x.2.ps y.2.2
  keeps : Keeps (some cmd) c.heap x.2.heap
  node : ∃ argv eargv, x.2.heap[cmd]? = some (.exec argv eargv) ∧ Args (Span mem) argv eargv (ws ++ y.1)
  chain : Chain (Span mem) x.2.heap cmd x.1 (rs ++ y.2.1)

theorem addArg_heap {q eq : Nat} (hnode : c.heap[cmd]? = some (.exec argv eargv))
    : (c.addArg cmd q eq).heap = c.heap.set cmd (.exec (argv ++ [q]) (eargv ++ [eq])) := by
  rw [Ctx.addArg, hnode]

theorem addArg_ps {q eq : Nat} : (c.addArg cmd q eq).ps = c.ps := by
  unfold Ctx.addArg
  split <;> rfl

theorem keeps_set {heap : List Node} (node : Node) : Keeps (some cmd) heap (heap.set cmd node) := by
  intro p n hne hnode
  rw [List.getElem?_set_ne, hnode]
  rintro rfl
  exact hne rfl

structure Parsed (mem : Mem) (es : Nat) (c : Ctx) (x : Nat × Ctx) (y : Ast × List Token) : Prop where
  rest : At mem es x.2.ps y.2
  keeps : Keeps none c.heap x.2.heap
  tree : Tree (Span mem) x.2.heap x.1 y.1

theorem parseargs_word {w : Word} {q eq : Nat} (hw : Span mem q eq w) (hnode : c.heap[cmd]? = some (.exec argv eargv))
    (hargs : Args (Span mem) argv eargv ws) (hchain : Chain (Span mem) c.heap cmd ret rs) (h : At mem es s ts)
    (ih : ∀ {ret argc : Nat} {c : Ctx} {ts : List Token} {rs : List Redir} {ws : List Word} {argv eargv : List Nat},
      At mem es c.ps ts → c.heap[cmd]? = some (.exec argv eargv) → Args (Span mem) argv eargv ws →
        Chain (Span mem) c.heap cmd ret rs →
        Agree (Filled mem es cmd ws rs c) (parseargs mem es fuel cmd ret argc c) (Descent.args fuel argc ts))
    : Agree (Filled mem es cmd ws rs c)
        (do
          let (ret, c) ← parseredirs mem es fuel ret ((c.seek s).addArg cmd q eq)
          parseargs mem es fuel cmd ret (argc + 1) c)
        (do
          let (rs, ts) ← Descent.redirs fuel ts
          let (ws, rs', ts) ← Descent.args fuel (argc + 1) ts
          return (w :: ws, rs ++ rs', ts)) := by
  have hheap : ((c.seek s).addArg cmd q eq).heap = c.heap.set cmd (.exec (argv ++ [q]) (eargv ++ [eq])) :=
    addArg_heap hnode
  have hkeeps : Keeps (some cmd) c.heap ((c.seek s).addArg cmd q eq).heap := by
    rw [hheap]
    exact keeps_set _
  have hcmd := (List.getElem?_eq_some_iff.mp hnode).1
  have hnode' : ((c.seek s).addArg cmd q eq).heap[cmd]? = some (.exec (argv ++ [q]) (eargv ++ [eq])) := by
    rw [hheap, List.getElem?_set_self hcmd]
  have hat : At mem es ((c.seek s).addArg cmd q eq).ps ts := by
    rwa [addArg_ps]
  apply (parseredirs_agree hat (hchain.keeps hkeeps) (List.getElem?_eq_some_iff.mp hnode').1).bind
  rintro ⟨ret', c'⟩ ⟨rs', us⟩ hredirected
  dsimp only
  rw [← bind_pure (parseargs mem es fuel cmd ret' _ _)]
  apply (ih hredirected.rest (hredirected.keeps _ _ (by simp) hnode') (hargs.snoc hw) hredirected.chain).bind
  rintro ⟨ret'', c''⟩ ⟨ws', rs'', us'⟩ hfilled
  apply Agree.ok
  constructor
  . exact hfilled.rest
  . exact (hkeeps.trans (hredirected.keeps.weaken _)).trans hfilled.keeps
  . have := hfilled.node
    rwa [List.append_assoc] at this
  . have := hfilled.chain
    rwa [List.append_assoc] at this

theorem parseargs_agree (h : At mem es c.ps ts) (hnode : c.heap[cmd]? = some (.exec argv eargv))
    (hargs : Args (Span mem) argv eargv ws) (hchain : Chain (Span mem) c.heap cmd ret rs)
    : Agree (Filled mem es cmd ws rs c) (parseargs mem es fuel cmd ret argc c) (Descent.args fuel argc ts) := by
  induction fuel generalizing c ts ret rs ws argv eargv argc with
  | zero => exact .error Stop.fuel
  | succ fuel ih =>
    have hends := h.peek_ends
    have hpeek := h.peek ['|', ')', '&', ';']
    rw [parseargs, Descent.args]
    dsimp only
    split
    . next hb =>
      rw [if_pos (hends.mpr (.inr hb))]
      refine .ok ⟨hpeek, Keeps.refl _ _, ⟨argv, eargv, hnode, ?_⟩, ?_⟩
      . rwa [List.append_nil]
      . rwa [List.append_nil]
    . next hb =>
      cases ts with
      | nil =>
        obtain ⟨hret, hend⟩ := hpeek.gettoken_nil
        rw [if_pos hret, if_pos (hends.mpr (.inl rfl))]
        refine .ok ⟨hend, Keeps.refl _ _, ⟨argv, eargv, hnode, ?_⟩, ?_⟩
        . rwa [List.append_nil]
        . rwa [List.append_nil]
      | cons t us =>
        obtain ⟨hret, hus, hspan⟩ := hpeek.gettoken
        have hends' : Descent.ends (t :: us) = false := by
          rw [Bool.eq_false_iff, Ne, hends]
          simpa using hb
        rw [hends', List.head?_cons, List.tail_cons]
        cases t with
        | bar | rpar | amp | semi => cases hends'
        | lpar | lt | gt | gtgt =>
          rw [hret]
          exact .error _
        | word w =>
          have hret' : (Sh.gettoken mem es (Sh.peek mem es c.ps ['|', ')', '&', ';']).1).ret = 'a' := hret
          rw [hret', if_neg (by decide : ¬ 'a' = '\x00'), if_neg (by decide : ¬ 'a' ≠ 'a'), if_neg Bool.false_ne_true]
          dsimp only
          by_cases hargc : argc + 1 ≥ MAXARGS
          . rw [if_pos hargc, if_pos hargc]
            exact .error _
          . rw [if_neg hargc, if_neg hargc]
            apply parseargs_word (hspan w rfl) hnode hargs hchain
            . exact hus
            . exact ih

theorem tree_back {a : Ast} (h : Tree (Span mem) c.heap cmd a)
    : Tree (Span mem) (c.heap ++ [.back cmd]) c.heap.length (.back a) :=
  .back (getElem?_append_length _ _) h.lt_length (h.keeps (keeps_append _ _))

theorem tree_pipe {left right : Nat} {a b : Ast} (ha : Tree (Span mem) c.heap left a)
    (hb : Tree (Span mem) c.heap right b)
    : Tree (Span mem) (c.heap ++ [.pipe left right]) c.heap.length (.pipe a b) :=
  .pipe (getElem?_append_length _ _) ha.lt_length hb.lt_length (ha.keeps (keeps_append _ _)) (hb.keeps (keeps_append _ _))

theorem tree_list {left right : Nat} {a b : Ast} (ha : Tree (Span mem) c.heap left a)
    (hb : Tree (Span mem) c.heap right b)
    : Tree (Span mem) (c.heap ++ [.list left right]) c.heap.length (.list a b) :=
  .list (getElem?_append_length _ _) ha.lt_length hb.lt_length (ha.keeps (keeps_append _ _)) (hb.keeps (keeps_append _ _))

theorem backs_back (n : Nat) (a : Ast) : backs n (.back a) = backs (n + 1) a := by
  induction n with
  | zero => rfl
  | succ n ih => exact congrArg Ast.back ih

theorem Parsed.of_keeps {c' : Ctx} {x : Nat × Ctx} {y : Ast × List Token} (h : Parsed mem es c' x y)
    (hkeeps : Keeps none c.heap c'.heap)
    : Parsed mem es c x y :=
  ⟨h.rest, hkeeps.trans h.keeps, h.tree⟩

theorem parseback_agree {a : Ast} (h : At mem es c.ps ts) (htree : Tree (Span mem) c.heap cmd a)
    : Agree (fun x y => Parsed mem es c x (backs y.1 a, y.2)) (parseback mem es fuel cmd c) (Descent.amps fuel ts) := by
  induction fuel generalizing c ts cmd a with
  | zero => exact .error Stop.fuel
  | succ fuel ih =>
    have hamp := h.peek_symbol amp_symbol
    have hpeek := h.peek [Token.amp.ret]
    rw [parseback, Descent.amps]
    dsimp only
    split
    . next hb =>
      have hhead := hamp.mp hb
      rw [Descent.eq_cons_of_head? hhead] at hpeek
      rw [if_pos hhead, ← bind_pure (parseback mem es fuel _ _)]
      apply (ih (c := ((c.seek _).alloc (.back cmd)).2) hpeek.gettoken.2.1 (tree_back htree)).bind
      rintro x ⟨n, us⟩ hparsed
      rw [backs_back] at hparsed
      exact .ok (hparsed.of_keeps (keeps_append _ _))
    . next hb =>
      rw [if_neg (hb ∘ hamp.mpr)]
      exact .ok ⟨hpeek, Keeps.refl none _, htree⟩

-- One fuel for the four functions.
structure Simulates (mem : Mem) (es fuel : Nat) : Prop where
  line : ∀ {c ts}, At mem es c.ps ts → Agree (Parsed mem es c) (parseline mem es fuel c) (Descent.line fuel ts)
  pipe : ∀ {c ts}, At mem es c.ps ts → Agree (Parsed mem es c) (parsepipe mem es fuel c) (Descent.pipe fuel ts)
  exec : ∀ {c ts}, At mem es c.ps ts → Agree (Parsed mem es c) (parseexec mem es fuel c) (Descent.exec fuel ts)
  block : ∀ {c ts}, At mem es c.ps (.lpar :: ts) →
    Agree (Parsed mem es c) (parseblock mem es fuel c) (Descent.block fuel ts)

theorem Simulates.line_succ (hx : Simulates mem es fuel) (h : At mem es c.ps ts)
    : Agree (Parsed mem es c) (parseline mem es (fuel + 1) c) (Descent.line (fuel + 1) ts) := by
  rw [parseline, Descent.line]
  apply (hx.pipe h).bind
  rintro ⟨cmd, c1⟩ ⟨a, ts1⟩ hpipe
  apply (parseback_agree hpipe.rest hpipe.tree).bind
  rintro ⟨left, c2⟩ ⟨n, ts2⟩ hback
  have hleft := hback.of_keeps hpipe.keeps
  have hsemi := hback.rest.peek_symbol semi_symbol
  have hpeek := hback.rest.peek [Token.semi.ret]
  dsimp only at hleft hsemi hpeek ⊢
  split
  . next hb =>
    have hhead := hsemi.mp hb
    rw [Descent.eq_cons_of_head? hhead] at hpeek
    rw [if_pos hhead]
    apply (hx.line (c := c2.seek _) hpeek.gettoken.2.1).bind
    rintro ⟨right, c3⟩ ⟨b, ts3⟩ hline
    apply Agree.ok
    constructor
    . exact hline.rest
    . exact (hleft.keeps.trans hline.keeps).trans (keeps_append _ _)
    . exact tree_list (hleft.tree.keeps hline.keeps) hline.tree
  . next hb =>
    rw [if_neg (hb ∘ hsemi.mpr)]
    exact .ok ⟨hpeek, hleft.keeps, hleft.tree⟩

theorem Simulates.pipe_succ (hx : Simulates mem es fuel) (h : At mem es c.ps ts)
    : Agree (Parsed mem es c) (parsepipe mem es (fuel + 1) c) (Descent.pipe (fuel + 1) ts) := by
  rw [parsepipe, Descent.pipe]
  apply (hx.exec h).bind
  rintro ⟨left, c1⟩ ⟨a, ts1⟩ hexec
  have hbar := hexec.rest.peek_symbol bar_symbol
  have hpeek := hexec.rest.peek [Token.bar.ret]
  dsimp only
  split
  . next hb =>
    have hhead := hbar.mp hb
    rw [Descent.eq_cons_of_head? hhead] at hpeek
    rw [if_pos hhead]
    apply (hx.pipe (c := c1.seek _) hpeek.gettoken.2.1).bind
    rintro ⟨right, c2⟩ ⟨b, ts2⟩ hpipe
    apply Agree.ok
    constructor
    . exact hpipe.rest
    . exact (hexec.keeps.trans hpipe.keeps).trans (keeps_append _ _)
    . exact tree_pipe (hexec.tree.keeps hpipe.keeps) hpipe.tree
  . next hb =>
    rw [if_neg (hb ∘ hbar.mpr)]
    exact .ok ⟨hpeek, hexec.keeps, hexec.tree⟩

theorem Simulates.exec_succ (hx : Simulates mem es fuel) (h : At mem es c.ps ts)
    : Agree (Parsed mem es c) (parseexec mem es (fuel + 1) c) (Descent.exec (fuel + 1) ts) := by
  have hlpar := h.peek_symbol lpar_symbol
  have hpeek := h.peek [Token.lpar.ret]
  rw [parseexec, Descent.exec]
  dsimp only
  split
  . next hb =>
    have hhead := hlpar.mp hb
    rw [Descent.eq_cons_of_head? hhead] at hpeek
    rw [if_pos hhead]
    exact (hx.block (c := c.seek _) hpeek).mono fun x y hparsed => hparsed.of_keeps (Keeps.refl none _)
  . next hb =>
    rw [if_neg (hb ∘ hlpar.mpr)]
    have hkeeps := keeps_append c.heap (.exec [] [])
    have hnode : (c.heap ++ [.exec [] []])[c.heap.length]? = some (Node.exec [] []) := getElem?_append_length _ _
    apply (parseredirs_agree (c := ((c.seek _).alloc (.exec [] [])).2) hpeek .nil (List.getElem?_eq_some_iff.mp hnode).1).bind
    rintro ⟨ret, c1⟩ ⟨rs, ts1⟩ hredirected
    rw [← bind_pure (parseargs mem es fuel _ _ _ _)]
    apply (parseargs_agree hredirected.rest (hredirected.keeps _ _ (by simp) hnode) .nil hredirected.chain).bind
    rintro ⟨ret', c2⟩ ⟨ws, rs', ts2⟩ hfilled
    obtain ⟨argv, eargv, hnode', hargs⟩ := hfilled.node
    apply Agree.ok
    constructor
    . exact hfilled.rest
    . intro p node hp hold
      have hlt := (List.getElem?_eq_some_iff.mp hold).1
      apply hfilled.keeps
      . simp only [ne_eq, Option.some.injEq]
        exact Nat.ne_of_lt hlt
      . exact hredirected.keeps _ _ hp (hkeeps _ _ hp hold)
    . exact hfilled.chain.tree (.exec hnode' hargs)

theorem Simulates.block_succ (hx : Simulates mem es fuel) (h : At mem es c.ps (.lpar :: ts))
    : Agree (Parsed mem es c) (parseblock mem es (fuel + 1) c) (Descent.block (fuel + 1) ts) := by
  have hlpar := h.peek_symbol lpar_symbol
  have hpeek := h.peek [Token.lpar.ret]
  rw [parseblock, Descent.block]
  dsimp only
  have hb : (Sh.peek mem es c.ps ['(']).2 = true := hlpar.mpr rfl
  rw [if_neg (by rw [hb]; decide)]
  apply (hx.line (c := c.seek _) hpeek.gettoken.2.1).bind
  rintro ⟨cmd, c1⟩ ⟨a, ts1⟩ hline
  have hrpar : (Sh.peek mem es c1.ps [')']).2 = true ↔ ts1.head? = some .rpar := hline.rest.peek_symbol rpar_symbol
  have hpeek' := hline.rest.peek [Token.rpar.ret]
  dsimp only
  split
  . next hb =>
    rw [if_neg]
    . exact .error _
    . intro hhead
      rw [hrpar.mpr hhead] at hb
      cases hb
  . next hb =>
    have hhead := hrpar.mp (by simpa using hb)
    rw [Descent.eq_cons_of_head? hhead] at hpeek'
    rw [if_pos hhead, ← bind_pure (parseredirs mem es fuel _ _)]
    apply (parseredirs_agree (c := c1.seek _) hpeek'.gettoken.2.1 .nil hline.tree.lt_length).bind
    rintro ⟨ret, c2⟩ ⟨rs, ts2⟩ hredirected
    apply Agree.ok
    constructor
    . exact hredirected.rest
    . exact hline.keeps.trans hredirected.keeps
    . exact hredirected.chain.tree (hline.tree.keeps hredirected.keeps)

theorem simulates (mem : Mem) (es fuel : Nat) : Simulates mem es fuel := by
  induction fuel with
  | zero => constructor <;> intros <;> exact .error Stop.fuel
  | succ fuel ih => exact ⟨ih.line_succ, ih.pipe_succ, ih.exec_succ, ih.block_succ⟩

end Xv6.Sh
