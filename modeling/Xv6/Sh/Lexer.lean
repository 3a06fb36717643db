import Mathlib.Data.List.Basic
import Xv6.Sh.Grammar

/-!
`gettoken` and `peek` against the tokens of the line.
-/

namespace Xv6.Sh

variable {mem : Mem} {es s : Nat}

-- What is left of the line.
def text (mem : Mem) (es s : Nat) : List Char :=
  (List.range' s (es - s)).map mem

def rest (mem : Mem) (es s : Nat) : List Token :=
  tokens (text mem es s)

-- The cursor is in the line, which ends at `es`.
structure InLine (mem : Mem) (es s : Nat) : Prop where
  le : s ≤ es
  nul : mem es = '\x00'
  ne_nul : ∀ a, s ≤ a → a < es → mem a ≠ '\x00'

-- The characters from `q` up to `eq` are the word, which is not longer.
structure Span (mem : Mem) (q eq : Nat) (w : Word) : Prop where
  length : eq = q + w.length
  get : ∀ j (h : j < w.length), mem (q + j) = w[j]
  word : ∀ c ∈ w, wordChar c ∧ c ≠ '\x00'
  stop : ¬ wordChar (mem eq) ∨ mem eq = '\x00'

theorem InLine.mono {s' : Nat} (h : InLine mem es s) (hs : s ≤ s') (hle : s' ≤ es) : InLine mem es s' :=
  ⟨hle, h.nul, fun a ha => h.ne_nul a (Nat.le_trans hs ha)⟩

theorem text_self : text mem es es = [] := by
  simp [text]

theorem text_cons (h : s < es) : text mem es s = mem s :: text mem es (s + 1) := by
  unfold text
  have : es - s = es - (s + 1) + 1 := by omega
  rw [this, List.range'_succ, List.map_cons]

theorem tokens_whitespace {c : Char} (hc : c ∈ whitespace) (cs : List Char) : tokens (c :: cs) = tokens cs := by
  simp only [whitespace, List.mem_cons, List.not_mem_nil, or_false] at hc
  rcases hc with rfl | rfl | rfl | rfl | rfl <;> simp [tokens, whitespace]

theorem tokens_word {c : Char} (hc : wordChar c) (cs : List Char)
    : tokens (c :: cs) = .word (c :: cs.takeWhile wordChar) :: tokens (cs.dropWhile wordChar) := by
  simp only [wordChar, symbols, List.mem_cons, List.not_mem_nil, or_false, not_or, Bool.decide_and, Bool.and_eq_true,
    decide_eq_true_eq] at hc
  obtain ⟨hws, hlt, hbar, hgt, hamp, hsemi, hlpar, hrpar⟩ := hc
  rw [tokens] <;> simp_all

theorem skip_spec (mem : Mem) (h : s ≤ es)
    : s ≤ skip mem es s ∧ skip mem es s ≤ es ∧ rest mem es (skip mem es s) = rest mem es s ∧
      (skip mem es s < es → mem (skip mem es s) ∉ whitespace) := by
  fun_induction skip mem es s with
  | case1 s hc ih =>
    obtain ⟨hlt, hws⟩ := hc
    obtain ⟨hle, hle', hrest, hnws⟩ := ih hlt
    refine ⟨by omega, hle', ?_, hnws⟩
    rw [hrest]
    unfold rest
    rw [text_cons hlt, tokens_whitespace hws]
  | case2 s hc =>
    refine ⟨Nat.le_refl s, h, rfl, ?_⟩
    intro hlt hws
    exact hc ⟨hlt, hws⟩

theorem skip_inLine (h : InLine mem es s) : InLine mem es (skip mem es s) := by
  obtain ⟨hle, hle', -, -⟩ := skip_spec mem h.le
  exact h.mono hle hle'

theorem rest_skip (h : InLine mem es s) : rest mem es (skip mem es s) = rest mem es s :=
  (skip_spec mem h.le).2.2.1

theorem scan_spec (mem : Mem) (h : s ≤ es)
    : s ≤ scan mem es s ∧ scan mem es s ≤ es ∧
      (text mem es s).takeWhile wordChar = (List.range' s (scan mem es s - s)).map mem ∧
      (text mem es s).dropWhile wordChar = text mem es (scan mem es s) ∧
      (scan mem es s < es → ¬ wordChar (mem (scan mem es s))) := by
  fun_induction scan mem es s with
  | case1 s hc ih =>
    obtain ⟨hlt, hword⟩ := hc
    obtain ⟨hle, hle', htake, hdrop, hstop⟩ := ih hlt
    have hw : wordChar (mem s) := by simpa [wordChar] using hword
    refine ⟨by omega, hle', ?_, ?_, hstop⟩
    . have : scan mem es (s + 1) - s = scan mem es (s + 1) - (s + 1) + 1 := by omega
      rw [text_cons hlt, List.takeWhile_cons_of_pos hw, htake, this, List.range'_succ, List.map_cons]
    . rw [text_cons hlt, List.dropWhile_cons_of_pos hw, hdrop]
  | case2 s hc =>
    have hnot : s < es → ¬ wordChar (mem s) := by
      intro hlt hw
      exact hc ⟨hlt, by simpa [wordChar] using hw⟩
    refine ⟨Nat.le_refl s, h, ?_, ?_, hnot⟩
    . rw [Nat.sub_self]
      rcases Nat.lt_or_ge s es with hlt | hge
      . rw [text_cons hlt, List.takeWhile_cons_of_neg (hnot hlt)]
        rfl
      . rw [Nat.le_antisymm h hge, text_self]
        rfl
    . rcases Nat.lt_or_ge s es with hlt | hge
      . rw [text_cons hlt, List.dropWhile_cons_of_neg (hnot hlt)]
      . rw [Nat.le_antisymm h hge, text_self]
        rfl

-- What `gettoken` returns for a token.
def Token.ret : Token → Char
  | .bar => '|'
  | .lpar => '('
  | .rpar => ')'
  | .semi => ';'
  | .amp => '&'
  | .lt => '<'
  | .gt => '>'
  | .gtgt => '+'
  | .word _ => 'a'

-- The first character of a token, if it is a symbol.
def Token.symbol : Token → Option Char
  | .gtgt => some '>'
  | .word _ => none
  | t => some t.ret

-- At a token.
structure Reads (mem : Mem) (es s : Nat) (t : Token) (r : Char × Nat) : Prop where
  ret : r.1 = t.ret
  lt : s < r.2
  le : r.2 ≤ es
  rest : rest mem es s = t :: rest mem es r.2
  symbol : ∀ c, t.symbol = some c ↔ mem s = c ∧ c ∈ symbols
  span : ∀ w, t = .word w → Span mem s r.2 w

theorem switch_symbol (hlt : s < es) {t : Token} (hsymbols : mem s ∈ symbols) (hsymbol : t.symbol = some (mem s))
    (hrest : tokens (mem s :: text mem es (s + 1)) = t :: tokens (text mem es (s + 1)))
    : Reads mem es s t (t.ret, s + 1) := by
  constructor
  . rfl
  . exact Nat.lt_succ_self s
  . exact hlt
  . unfold rest
    rw [text_cons hlt, hrest]
  . intro c
    rw [hsymbol, Option.some.injEq]
    constructor
    . rintro rfl
      exact ⟨rfl, hsymbols⟩
    . exact And.left
  . rintro w rfl
    cases hsymbol

theorem tokens_gt {cs : List Char} (h : cs.head? ≠ some '>') : tokens ('>' :: cs) = .gt :: tokens cs := by
  rw [tokens]
  rintro cs' rfl
  exact h rfl

theorem switch_gt (h : InLine mem es s) (hlt : s < es) (hgt : mem s = '>')
    : ∃ t, Reads mem es s t (if mem (s + 1) = '>' then ('+', s + 2) else ('>', s + 1)) := by
  split
  . next hgt' =>
    have hlt' : s + 1 < es := by
      have : s + 1 ≠ es := by
        rintro rfl
        rw [h.nul] at hgt'
        cases hgt'
      omega
    refine ⟨.gtgt, rfl, Nat.lt_add_of_pos_right (by decide), hlt', ?_, ?_, ?_⟩
    . unfold rest
      rw [text_cons hlt, text_cons hlt', hgt, hgt', tokens]
    . intro c
      simp only [Token.symbol, hgt, Option.some.injEq]
      constructor
      . rintro rfl
        exact ⟨rfl, by decide⟩
      . exact And.left
    . rintro w ⟨⟩
  . next hgt' =>
    refine ⟨.gt, switch_symbol hlt (by rw [hgt]; decide) (by rw [hgt]; rfl) ?_⟩
    rw [hgt]
    apply tokens_gt
    rcases Nat.lt_or_ge (s + 1) es with hlt' | hge
    . rw [text_cons hlt', List.head?_cons, Ne, Option.some.injEq]
      exact hgt'
    . have heq : s + 1 = es := by omega
      rw [heq, text_self]
      simp

theorem switch_word (h : InLine mem es s) (hlt : s < es) (hword : wordChar (mem s))
    : ∃ t, Reads mem es s t ('a', scan mem es s) := by
  obtain ⟨hle, hle', htake, hdrop, hstop⟩ := scan_spec mem h.le
  rw [text_cons hlt] at htake hdrop
  rw [List.takeWhile_cons_of_pos hword] at htake
  rw [List.dropWhile_cons_of_pos hword] at hdrop
  have hlen : (mem s :: (text mem es (s + 1)).takeWhile wordChar).length = scan mem es s - s := by
    rw [htake, List.length_map, List.length_range']
  refine ⟨.word (mem s :: (text mem es (s + 1)).takeWhile wordChar), rfl, ?_, hle', ?_, ?_, ?_⟩
  . rw [List.length_cons] at hlen
    dsimp only
    omega
  . unfold rest
    dsimp only
    rw [← hdrop, text_cons hlt, tokens_word hword]
  . intro c
    simp only [Token.symbol, reduceCtorEq, false_iff, not_and]
    rintro rfl hc
    simp [wordChar, hc] at hword
  . rintro w ⟨⟩
    constructor
    . rw [hlen]
      dsimp only
      omega
    . intro j hj
      simp only [htake, List.getElem_map, List.getElem_range', Nat.one_mul]
    . intro c hc
      have hword' : wordChar c := by
        rcases List.mem_cons.mp hc with rfl | hc
        . exact hword
        . exact List.all_eq_true.mp List.all_takeWhile c hc
      refine ⟨hword', ?_⟩
      rw [htake] at hc
      obtain ⟨a, ha, rfl⟩ := List.mem_map.mp hc
      rw [List.mem_range'_1] at ha
      exact h.ne_nul a ha.1 (by omega)
    . dsimp only
      rcases Nat.lt_or_ge (scan mem es s) es with hlt' | hge
      . exact Or.inl (hstop hlt')
      . right
        rw [Nat.le_antisymm hle' hge, h.nul]

theorem switch_spec (h : InLine mem es s) (hlt : s < es) (hws : mem s ∉ whitespace)
    : ∃ t, Reads mem es s t (switch mem es s) := by
  have hsymbol : ∀ t : Token, mem s = t.ret → t.ret ∈ symbols → t.symbol = some t.ret →
      tokens (t.ret :: text mem es (s + 1)) = t :: tokens (text mem es (s + 1)) →
      ∃ t, Reads mem es s t (mem s, s + 1) := by
    intro t hret hmem ht htokens
    rw [← hret] at hmem ht htokens
    refine ⟨t, ?_⟩
    have := switch_symbol hlt hmem ht htokens
    rwa [← hret] at this
  unfold switch
  split
  . next hnul => exact absurd hnul (h.ne_nul s (Nat.le_refl s) hlt)
  . next hc => exact hsymbol .bar hc (by decide) rfl (by rw [Token.ret, tokens])
  . next hc => exact hsymbol .lpar hc (by decide) rfl (by rw [Token.ret, tokens])
  . next hc => exact hsymbol .rpar hc (by decide) rfl (by rw [Token.ret, tokens])
  . next hc => exact hsymbol .semi hc (by decide) rfl (by rw [Token.ret, tokens])
  . next hc => exact hsymbol .amp hc (by decide) rfl (by rw [Token.ret, tokens])
  . next hc => exact hsymbol .lt hc (by decide) rfl (by rw [Token.ret, tokens])
  . next hc => exact switch_gt h hlt hc
  . next hbar hlpar hrpar hsemi hamp hlt' hgt =>
    apply switch_word h hlt
    simp only [wordChar, symbols, List.mem_cons, List.not_mem_nil, or_false, not_or, Bool.decide_and, Bool.and_eq_true,
      decide_eq_true_eq]
    exact ⟨hws, hlt', hbar, hgt, hamp, hsemi, hlpar, hrpar⟩

theorem skip_cases (h : InLine mem es s)
    : (rest mem es s = [] ∧ skip mem es s = es) ∨
      ∃ t, Reads mem es (skip mem es s) t (switch mem es (skip mem es s)) ∧
        rest mem es s = t :: rest mem es (switch mem es (skip mem es s)).2 := by
  have hin := skip_inLine h
  obtain ⟨hle, hle', hrest, hws⟩ := skip_spec mem h.le
  rcases Nat.lt_or_ge (skip mem es s) es with hlt | hge
  . right
    obtain ⟨t, ht⟩ := switch_spec hin hlt (hws hlt)
    exact ⟨t, ht, hrest ▸ ht.rest⟩
  . left
    have heq := Nat.le_antisymm hle' hge
    refine ⟨?_, heq⟩
    rw [← hrest, heq, rest, text_self, tokens]

theorem gettoken_nil (h : InLine mem es s) (hrest : rest mem es s = [])
    : (gettoken mem es s).ret = '\x00' ∧ (gettoken mem es s).ps = es := by
  rcases skip_cases h with ⟨-, heq⟩ | ⟨t, -, hcons⟩
  . have hswitch : switch mem es es = ('\x00', es) := by
      unfold switch
      rw [h.nul]
      rfl
    have hskip : skip mem es es = es := by
      rw [skip, if_neg (by simp)]
    unfold gettoken
    dsimp only
    rw [heq, hswitch]
    exact ⟨rfl, hskip⟩
  . rw [hrest] at hcons
    cases hcons

theorem gettoken_cons (h : InLine mem es s) {t : Token} {ts : List Token} (hrest : rest mem es s = t :: ts)
    : (gettoken mem es s).ret = t.ret ∧ rest mem es (gettoken mem es s).ps = ts ∧ InLine mem es (gettoken mem es s).ps ∧
      ∀ w, t = .word w → Span mem (gettoken mem es s).q (gettoken mem es s).eq w := by
  rcases skip_cases h with ⟨hnil, -⟩ | ⟨t', ht, hcons⟩
  . rw [hrest] at hnil
    cases hnil
  . rw [hrest, List.cons.injEq] at hcons
    obtain ⟨rfl, rfl⟩ := hcons
    have hin : InLine mem es (switch mem es (skip mem es s)).2 :=
      (skip_inLine h).mono (Nat.le_of_lt ht.lt) ht.le
    exact ⟨ht.ret, rest_skip hin, skip_inLine hin, ht.span⟩

theorem peek_spec (h : InLine mem es s) {toks : List Char} (htoks : ∀ c ∈ toks, c ∈ symbols)
    : rest mem es (peek mem es s toks).1 = rest mem es s ∧ InLine mem es (peek mem es s toks).1 ∧
      ((peek mem es s toks).2 ↔ ∃ t ∈ (rest mem es s).head?, ∃ c ∈ t.symbol, c ∈ toks) := by
  refine ⟨rest_skip h, skip_inLine h, ?_⟩
  unfold peek
  dsimp only
  rw [decide_eq_true_iff]
  rcases skip_cases h with ⟨hnil, heq⟩ | ⟨t, ht, hcons⟩
  . rw [heq, h.nul, hnil]
    simp
  . rw [hcons]
    constructor
    . rintro ⟨-, hmem⟩
      exact ⟨t, rfl, _, (ht.symbol _).mpr ⟨rfl, htoks _ hmem⟩, hmem⟩
    . rintro ⟨t', ht', c, hc, hmem⟩
      cases ht'
      obtain ⟨rfl, hsymbol⟩ := (ht.symbol c).mp hc
      refine ⟨?_, hmem⟩
      intro hnul
      rw [hnul] at hsymbol
      revert hsymbol
      decide

end Xv6.Sh
