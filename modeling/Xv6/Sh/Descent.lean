import Xv6.Lib.Outcome
import Xv6.Sh.Grammar

/-!
Recursive descent over the tokens of a line: what the parser does when the cursor, the nodes and the characters are left
out. It accepts the lines of the grammar and no others.
-/

namespace Xv6.Sh.Descent

open Outcome

def redirects : Token → Bool
  | .lt | .gt | .gtgt => true
  | _ => false

-- The redirection in front.
def redirect : List Token → Option Redir
  | t :: .word w :: _ => redirOf w t
  | _ => none

def redirs : Nat → List Token → Except Stop (List Redir × List Token)
  | 0, _ => .error .fuel
  | fuel + 1, ts =>
    if ts.head?.any redirects then
      match redirect ts with
      | some r => do
        let (rs, ts) ← redirs fuel (ts.drop 2)
        return (r :: rs, ts)
      | none => .error (.panic "missing file for redirection")
    else .ok ([], ts)

-- What stops the loop over the words.
def ends : List Token → Bool
  | [] | .bar :: _ | .rpar :: _ | .amp :: _ | .semi :: _ => true
  | _ => false

def args : Nat → Nat → List Token → Except Stop (List Word × List Redir × List Token)
  | 0, _, _ => .error .fuel
  | fuel + 1, argc, ts =>
    if ends ts then .ok ([], [], ts)
    else
      match ts.head? with
      | some (.word w) =>
        if argc + 1 ≥ MAXARGS then .error (.panic "too many args")
        else do
          let (rs, ts) ← redirs fuel ts.tail
          let (ws, rs', ts) ← args fuel (argc + 1) ts
          return (w :: ws, rs ++ rs', ts)
      | _ => .error (.panic "syntax")

def amps : Nat → List Token → Except Stop (Nat × List Token)
  | 0, _ => .error .fuel
  | fuel + 1, ts =>
    if ts.head? = some .amp then do
      let (n, ts) ← amps fuel ts.tail
      return (n + 1, ts)
    else .ok (0, ts)

mutual

def line : Nat → List Token → Except Stop (Ast × List Token)
  | 0, _ => .error .fuel
  | fuel + 1, ts => do
    let (cmd, ts) ← pipe fuel ts
    let (n, ts) ← amps fuel ts
    if ts.head? = some .semi then
      let (right, ts) ← line fuel ts.tail
      return (.list (backs n cmd) right, ts)
    else return (backs n cmd, ts)

def pipe : Nat → List Token → Except Stop (Ast × List Token)
  | 0, _ => .error .fuel
  | fuel + 1, ts => do
    let (cmd, ts) ← exec fuel ts
    if ts.head? = some .bar then
      let (right, ts) ← pipe fuel ts.tail
      return (.pipe cmd right, ts)
    else return (cmd, ts)

def exec : Nat → List Token → Except Stop (Ast × List Token)
  | 0, _ => .error .fuel
  | fuel + 1, ts =>
    if ts.head? = some .lpar then block fuel ts.tail
    else do
      let (rs, ts) ← redirs fuel ts
      let (ws, rs', ts) ← args fuel 0 ts
      return (wrap (.exec ws) (rs ++ rs'), ts)

-- Behind '('.
def block : Nat → List Token → Except Stop (Ast × List Token)
  | 0, _ => .error .fuel
  | fuel + 1, ts => do
    let (cmd, ts) ← line fuel ts
    if ts.head? = some .rpar then
      let (rs, ts) ← redirs fuel ts.tail
      return (wrap cmd rs, ts)
    else .error (.panic "syntax - missing )")

end

variable {fuel argc n : Nat} {ts us : List Token} {rs : List Redir} {ws : List Word} {cmd : Ast}

theorem eq_cons_of_head? {t : Token} (h : ts.head? = some t) : ts = t :: ts.tail := by
  cases ts with
  | nil => cases h
  | cons t' ts =>
    cases h
    rfl

theorem redirect_eq_some {r : Redir} (h : redirect ts = some r)
    : ∃ t w, ts = t :: .word w :: ts.drop 2 ∧ redirOf w t = some r := by
  unfold redirect at h
  split at h
  . next t w us => exact ⟨t, w, rfl, h⟩
  . cases h

theorem redirs_sound (h : redirs fuel ts = .ok (rs, us)) : ∃ ds, ts = ds ++ us ∧ Redirs ds rs := by
  induction fuel generalizing ts rs with
  | zero => cases h
  | succ fuel ih =>
    rw [redirs] at h
    split at h
    . split at h
      . next r hr =>
        obtain ⟨⟨rs', us'⟩, hrec, h⟩ := bind_eq_ok h
        cases h
        obtain ⟨t, w, hts, hr⟩ := redirect_eq_some hr
        obtain ⟨ds, hds, hds'⟩ := ih hrec
        exact ⟨t :: .word w :: ds, by rw [hts, hds]; rfl, .cons hr hds'⟩
      . cases h
    . cases h
      exact ⟨[], rfl, .nil⟩

theorem args_sound (h : args fuel argc ts = .ok (ws, rs, us))
    : ∃ ds, ts = ds ++ us ∧ Words ds ws rs ∧ (ws = [] ∨ argc + ws.length < MAXARGS) := by
  induction fuel generalizing argc ts ws rs with
  | zero => cases h
  | succ fuel ih =>
    rw [args] at h
    split at h
    . cases h
      exact ⟨[], rfl, .nil, Or.inl rfl⟩
    . split at h
      . next w hw =>
        split at h
        . cases h
        . next hlt =>
          obtain ⟨⟨rs', us'⟩, hredirs, h⟩ := bind_eq_ok h
          obtain ⟨⟨ws', rs'', us''⟩, hrec, h⟩ := bind_eq_ok h
          cases h
          obtain ⟨ds, hds, hds'⟩ := redirs_sound hredirs
          obtain ⟨ds', rfl, hws, hlen⟩ := ih hrec
          refine ⟨.word w :: ds ++ ds', ?_, .cons hds' hws, Or.inr ?_⟩
          . rw [eq_cons_of_head? hw, hds]
            simp
          . rw [List.length_cons]
            rcases hlen with rfl | hlen
            . rw [List.length_nil]
              omega
            . omega
      . cases h

theorem amps_sound (h : amps fuel ts = .ok (n, us)) : ts = List.replicate n .amp ++ us := by
  induction fuel generalizing ts n with
  | zero => cases h
  | succ fuel ih =>
    rw [amps] at h
    split at h
    . next hamp =>
      obtain ⟨⟨n', us'⟩, hrec, h⟩ := bind_eq_ok h
      cases h
      rw [eq_cons_of_head? hamp, ih hrec]
      rfl
    . cases h
      rfl

-- What each of the four functions accepts.
structure Accepts (fuel : Nat) : Prop where
  line : ∀ ts cmd us, line fuel ts = .ok (cmd, us) → ∃ ds, ts = ds ++ us ∧ Derives .line ds cmd
  pipe : ∀ ts cmd us, pipe fuel ts = .ok (cmd, us) → ∃ ds, ts = ds ++ us ∧ Derives .pipe ds cmd
  exec : ∀ ts cmd us, exec fuel ts = .ok (cmd, us) → ∃ ds, ts = ds ++ us ∧ Derives .exec ds cmd
  block : ∀ ts cmd us, block fuel ts = .ok (cmd, us) → ∃ ds, .lpar :: ts = ds ++ us ∧ Derives .exec ds cmd

theorem Accepts.line_succ (hx : Accepts fuel) (h : Descent.line (fuel + 1) ts = .ok (cmd, us))
    : ∃ ds, ts = ds ++ us ∧ Derives .line ds cmd := by
  rw [Descent.line] at h
  obtain ⟨⟨cmd', vs⟩, hpipe, h⟩ := bind_eq_ok h
  obtain ⟨⟨n, vs'⟩, hamps, hrest⟩ := bind_eq_ok h
  dsimp only at hrest
  obtain ⟨ds, rfl, hds⟩ := hx.pipe _ _ _ hpipe
  have hvs := amps_sound hamps
  subst hvs
  split at hrest
  . next hsemi =>
    obtain ⟨⟨right, ws⟩, hline, hret⟩ := bind_eq_ok hrest
    cases hret
    obtain ⟨ds', hds', hright⟩ := hx.line _ _ _ hline
    refine ⟨ds ++ List.replicate n .amp ++ .semi :: ds', ?_, .seq n hds hright⟩
    rw [eq_cons_of_head? hsemi, hds']
    simp
  . cases hrest
    exact ⟨ds ++ List.replicate n .amp, by simp, .line n hds⟩

theorem Accepts.pipe_succ (hx : Accepts fuel) (h : Descent.pipe (fuel + 1) ts = .ok (cmd, us))
    : ∃ ds, ts = ds ++ us ∧ Derives .pipe ds cmd := by
  rw [Descent.pipe] at h
  obtain ⟨⟨cmd', vs⟩, hexec, hrest⟩ := bind_eq_ok h
  dsimp only at hrest
  obtain ⟨ds, rfl, hds⟩ := hx.exec _ _ _ hexec
  split at hrest
  . next hbar =>
    obtain ⟨⟨right, ws⟩, hpipe, hret⟩ := bind_eq_ok hrest
    cases hret
    obtain ⟨ds', hds', hright⟩ := hx.pipe _ _ _ hpipe
    refine ⟨ds ++ .bar :: ds', ?_, .bar hds hright⟩
    rw [eq_cons_of_head? hbar, hds']
    simp
  . cases hrest
    exact ⟨ds, rfl, .pipe hds⟩

theorem Accepts.exec_succ (hx : Accepts fuel) (h : Descent.exec (fuel + 1) ts = .ok (cmd, us))
    : ∃ ds, ts = ds ++ us ∧ Derives .exec ds cmd := by
  rw [Descent.exec] at h
  split at h
  . next hlpar =>
    rw [eq_cons_of_head? hlpar]
    exact hx.block _ _ _ h
  . obtain ⟨⟨rs, vs⟩, hredirs, h⟩ := bind_eq_ok h
    obtain ⟨⟨ws, rs', vs'⟩, hargs, h⟩ := bind_eq_ok h
    cases h
    obtain ⟨ds, rfl, hds⟩ := redirs_sound hredirs
    obtain ⟨ds', rfl, hds', hlen⟩ := args_sound hargs
    refine ⟨ds ++ ds', by simp, .exec hds hds' ?_⟩
    rcases hlen with rfl | hlen
    . decide
    . omega

theorem Accepts.block_succ (hx : Accepts fuel) (h : Descent.block (fuel + 1) ts = .ok (cmd, us))
    : ∃ ds, .lpar :: ts = ds ++ us ∧ Derives .exec ds cmd := by
  rw [Descent.block] at h
  obtain ⟨⟨cmd', vs⟩, hline, hrest⟩ := bind_eq_ok h
  dsimp only at hrest
  obtain ⟨ds, rfl, hds⟩ := hx.line _ _ _ hline
  split at hrest
  . next hrpar =>
    obtain ⟨⟨rs, ws⟩, hredirs, hret⟩ := bind_eq_ok hrest
    cases hret
    obtain ⟨ds', hds', hrs⟩ := redirs_sound hredirs
    refine ⟨.lpar :: ds ++ .rpar :: ds', ?_, .block hds hrs⟩
    rw [eq_cons_of_head? hrpar, hds']
    simp
  . cases hrest

theorem accepts (fuel : Nat) : Accepts fuel := by
  induction fuel with
  | zero => constructor <;> intro ts cmd us h <;> cases h
  | succ fuel ih =>
    constructor
    . intro ts cmd us
      exact ih.line_succ
    . intro ts cmd us
      exact ih.pipe_succ
    . intro ts cmd us
      exact ih.exec_succ
    . intro ts cmd us
      exact ih.block_succ

theorem redirs_ne_fuel (h : ts.length < fuel) : redirs fuel ts ≠ .error .fuel := by
  induction fuel generalizing ts with
  | zero => omega
  | succ fuel ih =>
    rw [redirs]
    split
    . split
      . next r hr =>
        obtain ⟨t, w, hts, -⟩ := redirect_eq_some hr
        have hlen := congrArg List.length hts
        rw [List.length_cons, List.length_cons] at hlen
        apply bind_ne_error
        . apply ih
          omega
        . intro a _ hret
          cases hret
      . simp
    . simp

theorem args_ne_fuel (h : ts.length < fuel) : args fuel argc ts ≠ .error .fuel := by
  induction fuel generalizing argc ts with
  | zero => omega
  | succ fuel ih =>
    rw [args]
    split
    . simp
    . split
      . next w hw =>
        have hlen := congrArg List.length (eq_cons_of_head? hw)
        rw [List.length_cons] at hlen
        split
        . simp
        . apply bind_ne_error
          . apply redirs_ne_fuel
            omega
          . rintro ⟨rs, us⟩ hredirs
            obtain ⟨ds, hds, -⟩ := redirs_sound hredirs
            have hlen' := congrArg List.length hds
            rw [List.length_append] at hlen'
            apply bind_ne_error
            . apply ih
              omega
            . intro a _ hret
              cases hret
      . simp

theorem amps_ne_fuel (h : ts.length < fuel) : amps fuel ts ≠ .error .fuel := by
  induction fuel generalizing ts with
  | zero => omega
  | succ fuel ih =>
    rw [amps]
    split
    . next hamp =>
      have hlen := congrArg List.length (eq_cons_of_head? hamp)
      rw [List.length_cons] at hlen
      apply bind_ne_error
      . apply ih
        omega
      . intro a _ hret
        cases hret
    . simp

-- The fuel that is enough for a number of tokens.
structure Suffices (fuel : Nat) : Prop where
  line : ∀ ts, 4 * ts.length + 4 ≤ fuel → line fuel ts ≠ .error .fuel
  pipe : ∀ ts, 4 * ts.length + 3 ≤ fuel → pipe fuel ts ≠ .error .fuel
  exec : ∀ ts, 4 * ts.length + 2 ≤ fuel → exec fuel ts ≠ .error .fuel
  block : ∀ ts, 4 * ts.length + 5 ≤ fuel → block fuel ts ≠ .error .fuel

theorem Suffices.line_succ (hx : Suffices fuel) (h : 4 * ts.length + 4 ≤ fuel + 1)
    : Descent.line (fuel + 1) ts ≠ .error .fuel := by
  rw [Descent.line]
  apply bind_ne_error
  . apply hx.pipe
    omega
  . rintro ⟨cmd, us⟩ hpipe
    obtain ⟨ds, rfl, -⟩ := (accepts fuel).pipe _ _ _ hpipe
    rw [List.length_append] at h
    apply bind_ne_error
    . apply amps_ne_fuel
      omega
    . rintro ⟨n, vs⟩ hamps
      have hlen := congrArg List.length (amps_sound hamps)
      rw [List.length_append] at hlen
      dsimp only
      split
      . next hsemi =>
        have hlen' := congrArg List.length (eq_cons_of_head? hsemi)
        rw [List.length_cons] at hlen'
        apply bind_ne_error
        . apply hx.line
          omega
        . intro a _ hret
          cases hret
      . intro hret
        cases hret

theorem Suffices.pipe_succ (hx : Suffices fuel) (h : 4 * ts.length + 3 ≤ fuel + 1)
    : Descent.pipe (fuel + 1) ts ≠ .error .fuel := by
  rw [Descent.pipe]
  apply bind_ne_error
  . apply hx.exec
    omega
  . rintro ⟨cmd, us⟩ hexec
    obtain ⟨ds, rfl, -⟩ := (accepts fuel).exec _ _ _ hexec
    rw [List.length_append] at h
    dsimp only
    split
    . next hbar =>
      have hlen := congrArg List.length (eq_cons_of_head? hbar)
      rw [List.length_cons] at hlen
      apply bind_ne_error
      . apply hx.pipe
        omega
      . intro a _ hret
        cases hret
    . intro hret
      cases hret

theorem Suffices.exec_succ (hx : Suffices fuel) (h : 4 * ts.length + 2 ≤ fuel + 1)
    : Descent.exec (fuel + 1) ts ≠ .error .fuel := by
  rw [Descent.exec]
  split
  . next hlpar =>
    have hlen := congrArg List.length (eq_cons_of_head? hlpar)
    rw [List.length_cons] at hlen
    apply hx.block
    omega
  . apply bind_ne_error
    . apply redirs_ne_fuel
      omega
    . rintro ⟨rs, us⟩ hredirs
      obtain ⟨ds, rfl, -⟩ := redirs_sound hredirs
      rw [List.length_append] at h
      apply bind_ne_error
      . apply args_ne_fuel
        omega
      . intro a _ hret
        cases hret

theorem Suffices.block_succ (hx : Suffices fuel) (h : 4 * ts.length + 5 ≤ fuel + 1)
    : Descent.block (fuel + 1) ts ≠ .error .fuel := by
  rw [Descent.block]
  apply bind_ne_error
  . apply hx.line
    omega
  . rintro ⟨cmd, us⟩ hline
    obtain ⟨ds, rfl, -⟩ := (accepts fuel).line _ _ _ hline
    rw [List.length_append] at h
    dsimp only
    split
    . next hrpar =>
      have hlen := congrArg List.length (eq_cons_of_head? hrpar)
      rw [List.length_cons] at hlen
      apply bind_ne_error
      . apply redirs_ne_fuel
        omega
      . intro a _ hret
        cases hret
    . simp

theorem suffices_fuel (fuel : Nat) : Suffices fuel := by
  induction fuel with
  | zero => constructor <;> intro ts h <;> omega
  | succ fuel ih =>
    constructor
    . intro ts
      exact ih.line_succ
    . intro ts
      exact ih.pipe_succ
    . intro ts
      exact ih.exec_succ
    . intro ts
      exact ih.block_succ

theorem redirects_of_redirOf {t : Token} {w : Word} {r : Redir} (h : redirOf w t = some r) : redirects t := by
  cases t <;> first | rfl | cases h

theorem redirs_complete {ds : List Token} (h : Redirs ds rs) (hus : us.head?.any redirects = false)
    (hfuel : ds.length + us.length < fuel)
    : redirs fuel (ds ++ us) = .ok (rs, us) := by
  induction h generalizing fuel with
  | nil =>
    obtain ⟨fuel, rfl⟩ := Nat.exists_eq_add_of_lt hfuel
    rw [redirs, List.nil_append, hus]
    rfl
  | @cons t w r ds rs hr hrs ih =>
    cases fuel with
    | zero => omega
    | succ fuel =>
      rw [List.length_cons, List.length_cons] at hfuel
      have hred : (t :: .word w :: ds ++ us).head?.any redirects = true := redirects_of_redirOf hr
      have hsome : redirect (t :: .word w :: ds ++ us) = some r := hr
      have hdrop : (t :: .word w :: ds ++ us).drop 2 = ds ++ us := rfl
      rw [redirs, hred, if_pos rfl, hsome, hdrop]
      dsimp only
      rw [ih (by omega)]
      rfl

theorem head_not_redirects {ds : List Token} (h : Words ds ws rs) (hus : us.head?.any redirects = false)
    : (ds ++ us).head?.any redirects = false := by
  cases h with
  | nil => exact hus
  | cons hrs hws => rfl

theorem ends_not_redirects (h : ends us) : us.head?.any redirects = false := by
  unfold ends at h
  split at h <;> first | rfl | cases h

theorem args_complete {ds : List Token} (h : Words ds ws rs) (hus : ends us) (hlen : argc + ws.length < MAXARGS)
    (hfuel : ds.length + us.length < fuel)
    : args fuel argc (ds ++ us) = .ok (ws, rs, us) := by
  induction h generalizing fuel argc with
  | nil =>
    obtain ⟨fuel, rfl⟩ := Nat.exists_eq_add_of_lt hfuel
    rw [args, List.nil_append, hus]
    rfl
  | @cons w ds ds' rs rs' ws hrs hws ih =>
    cases fuel with
    | zero => omega
    | succ fuel =>
      rw [List.length_append, List.length_cons] at hfuel
      rw [List.length_cons] at hlen
      have hnot : ends (.word w :: ds ++ ds' ++ us) = false := rfl
      have hhead : (.word w :: ds ++ ds' ++ us).head? = some (.word w) := rfl
      have htail : (.word w :: ds ++ ds' ++ us).tail = ds ++ (ds' ++ us) := by simp
      have hredirs : redirs fuel (ds ++ (ds' ++ us)) = .ok (rs, ds' ++ us) := by
        apply redirs_complete hrs (head_not_redirects hws (ends_not_redirects hus))
        rw [List.length_append]
        omega
      rw [args, hnot, hhead, htail]
      dsimp only
      rw [if_neg (by decide), if_neg (by omega), hredirs, ok_bind, ih (by omega) (by omega), ok_bind]
      rfl

theorem amps_complete (h : us.head? ≠ some .amp) (hfuel : n < fuel)
    : amps fuel (List.replicate n .amp ++ us) = .ok (n, us) := by
  induction n generalizing fuel with
  | zero =>
    obtain ⟨fuel, rfl⟩ := Nat.exists_eq_add_of_lt hfuel
    rw [List.replicate_zero, List.nil_append, amps, if_neg h]
  | succ n ih =>
    cases fuel with
    | zero => omega
    | succ fuel =>
      have hhead : (List.replicate (n + 1) Token.amp ++ us).head? = some .amp := rfl
      rw [amps, if_pos hhead, List.replicate_succ, List.cons_append, List.tail_cons, ih (by omega)]
      rfl

-- The tokens that can follow.
def follows : Nonterminal → Token → Bool
  | .line, .rpar => true
  | .pipe, .rpar | .pipe, .amp | .pipe, .semi => true
  | .exec, .rpar | .exec, .amp | .exec, .semi | .exec, .bar => true
  | _, _ => false

def parse : Nonterminal → Nat → List Token → Except Stop (Ast × List Token)
  | .line => line
  | .pipe => pipe
  | .exec => exec

def need : Nonterminal → Nat → Nat
  | .line, len => 4 * len + 4
  | .pipe, len => 4 * len + 3
  | .exec, len => 4 * len + 2

theorem follows_pipe {t : Token} (h : follows .line t) : follows .pipe t := by
  cases t <;> first | rfl | cases h

theorem follows_exec {t : Token} (h : follows .pipe t) : follows .exec t := by
  cases t <;> first | rfl | cases h

theorem follows_amps (h : ∀ t ∈ us.head?, follows .pipe t) (n : Nat)
    : ∀ t ∈ (List.replicate n Token.amp ++ us).head?, follows .pipe t := by
  cases n with
  | zero => exact h
  | succ n =>
    intro t ht
    cases ht
    rfl

theorem ends_of_follows (h : ∀ t ∈ us.head?, follows .exec t) : ends us := by
  cases us with
  | nil => rfl
  | cons t us =>
    have ht := h t rfl
    cases t <;> first | rfl | cases ht

theorem ne_of_follows {nt : Nonterminal} {t : Token} (h : ∀ t ∈ us.head?, follows nt t) (ht : follows nt t = false)
    : us.head? ≠ some t := by
  intro hhead
  rw [h t hhead] at ht
  cases ht

-- A derived `exec` without parentheses does not begin with one.
theorem head_ne_lpar {ds ds' : List Token} {rs' : List Redir} (hrs : Redirs ds rs) (hws : Words ds' ws rs')
    (hus : ends us)
    : (ds ++ (ds' ++ us)).head? ≠ some .lpar := by
  cases hrs with
  | cons hr _ =>
    intro h
    cases h
    cases hr
  | nil =>
    cases hws with
    | cons _ _ =>
      intro h
      cases h
    | nil =>
      intro h
      rw [List.nil_append, List.nil_append] at h
      rw [eq_cons_of_head? h] at hus
      cases hus

theorem complete {nt : Nonterminal} {ds : List Token} (h : Derives nt ds cmd)
    (hus : ∀ t ∈ us.head?, follows nt t) (hfuel : need nt (ds.length + us.length) ≤ fuel)
    : parse nt fuel (ds ++ us) = .ok (cmd, us) := by
  have hpos : ∀ nt len, 0 < need nt len := by
    intro nt len
    cases nt <;> simp [need]
  induction h generalizing us fuel with
  | @line ds cmd n hpipe ih =>
    obtain ⟨fuel, rfl⟩ := Nat.exists_eq_add_of_lt (Nat.lt_of_lt_of_le (hpos _ _) hfuel)
    simp only [need, List.length_append, List.length_replicate] at hfuel
    have hpipe' : pipe (0 + fuel) (ds ++ (List.replicate n .amp ++ us)) = .ok (cmd, List.replicate n .amp ++ us) := by
      apply ih (follows_amps (fun t ht => follows_pipe (hus t ht)) n)
      simp only [need, List.length_append, List.length_replicate]
      omega
    have hamps : amps (0 + fuel) (List.replicate n .amp ++ us) = .ok (n, us) := by
      apply amps_complete (ne_of_follows hus rfl)
      omega
    dsimp only [parse]
    rw [line, List.append_assoc, hpipe', ok_bind]
    dsimp only
    rw [hamps, ok_bind]
    dsimp only
    rw [if_neg (ne_of_follows hus rfl)]
    rfl
  | @seq ds ds' cmd cmd' n hpipe hline ih ih' =>
    obtain ⟨fuel, rfl⟩ := Nat.exists_eq_add_of_lt (Nat.lt_of_lt_of_le (hpos _ _) hfuel)
    simp only [need, List.length_append, List.length_replicate, List.length_cons] at hfuel
    have hsplit : ds ++ List.replicate n Token.amp ++ .semi :: ds' ++ us =
        ds ++ (List.replicate n .amp ++ (.semi :: (ds' ++ us))) := by
      simp
    have hhead : (Token.semi :: (ds' ++ us)).head? = some .semi := rfl
    have hsemi : ∀ t ∈ (Token.semi :: (ds' ++ us)).head?, follows .pipe t := by
      intro t ht
      cases ht
      rfl
    have hpipe' : pipe (0 + fuel) (ds ++ (List.replicate n .amp ++ .semi :: (ds' ++ us))) =
        .ok (cmd, List.replicate n .amp ++ .semi :: (ds' ++ us)) := by
      apply ih (follows_amps hsemi n)
      simp only [need, List.length_append, List.length_replicate, List.length_cons]
      omega
    have hamps : amps (0 + fuel) (List.replicate n .amp ++ .semi :: (ds' ++ us)) = .ok (n, .semi :: (ds' ++ us)) := by
      apply amps_complete
      . rw [hhead]
        simp
      . omega
    have hline' : line (0 + fuel) (ds' ++ us) = .ok (cmd', us) := by
      apply ih' hus
      simp only [need]
      omega
    dsimp only [parse]
    rw [line, hsplit, hpipe', ok_bind]
    dsimp only
    rw [hamps, ok_bind]
    dsimp only
    rw [if_pos hhead, List.tail_cons, hline', ok_bind]
    rfl
  | @pipe ds cmd hexec ih =>
    obtain ⟨fuel, rfl⟩ := Nat.exists_eq_add_of_lt (Nat.lt_of_lt_of_le (hpos _ _) hfuel)
    simp only [need] at hfuel
    have hexec' : exec (0 + fuel) (ds ++ us) = .ok (cmd, us) := by
      apply ih (fun t ht => follows_exec (hus t ht))
      simp only [need]
      omega
    dsimp only [parse]
    rw [pipe, hexec', ok_bind]
    dsimp only
    rw [if_neg (ne_of_follows hus rfl)]
    rfl
  | @bar ds ds' cmd cmd' hexec hpipe ih ih' =>
    obtain ⟨fuel, rfl⟩ := Nat.exists_eq_add_of_lt (Nat.lt_of_lt_of_le (hpos _ _) hfuel)
    simp only [need, List.length_append, List.length_cons] at hfuel
    have hsplit : ds ++ .bar :: ds' ++ us = ds ++ (.bar :: (ds' ++ us)) := by simp
    have hhead : (Token.bar :: (ds' ++ us)).head? = some .bar := rfl
    have hbar : ∀ t ∈ (Token.bar :: (ds' ++ us)).head?, follows .exec t := by
      intro t ht
      cases ht
      rfl
    have hexec' : exec (0 + fuel) (ds ++ .bar :: (ds' ++ us)) = .ok (cmd, .bar :: (ds' ++ us)) := by
      apply ih hbar
      simp only [need, List.length_append, List.length_cons]
      omega
    have hpipe' : pipe (0 + fuel) (ds' ++ us) = .ok (cmd', us) := by
      apply ih' hus
      simp only [need]
      omega
    dsimp only [parse]
    rw [pipe, hsplit, hexec', ok_bind]
    dsimp only
    rw [if_pos hhead, List.tail_cons, hpipe', ok_bind]
    rfl
  | @block ds ds' cmd rs hline hrs ih =>
    obtain ⟨fuel, rfl⟩ := Nat.exists_eq_add_of_lt (Nat.lt_of_lt_of_le (hpos _ _) hfuel)
    simp only [need, List.length_append, List.length_cons] at hfuel
    obtain ⟨fuel, rfl⟩ : ∃ k, fuel = k + 1 := Nat.exists_eq_succ_of_ne_zero (by omega)
    have hsplit : .lpar :: ds ++ .rpar :: ds' ++ us = .lpar :: (ds ++ (.rpar :: (ds' ++ us))) := by simp
    have hrpar : ∀ t ∈ (Token.rpar :: (ds' ++ us)).head?, follows .line t := by
      intro t ht
      cases ht
      rfl
    have hline' : line fuel (ds ++ .rpar :: (ds' ++ us)) = .ok (cmd, .rpar :: (ds' ++ us)) := by
      apply ih hrpar
      simp only [need, List.length_append, List.length_cons]
      omega
    have hredirs : redirs fuel (ds' ++ us) = .ok (rs, us) := by
      apply redirs_complete hrs (ends_not_redirects (ends_of_follows hus))
      omega
    have hlpar : (Token.lpar :: (ds ++ .rpar :: (ds' ++ us))).head? = some .lpar := rfl
    have hhead : (Token.rpar :: (ds' ++ us)).head? = some .rpar := rfl
    dsimp only [parse]
    rw [hsplit, exec, if_pos hlpar, List.tail_cons, Nat.zero_add, block, hline', ok_bind]
    dsimp only
    rw [if_pos hhead, List.tail_cons, hredirs, ok_bind]
    rfl
  | @exec ds ds' rs rs' ws hrs hws hlen =>
    obtain ⟨fuel, rfl⟩ := Nat.exists_eq_add_of_lt (Nat.lt_of_lt_of_le (hpos _ _) hfuel)
    simp only [need, List.length_append] at hfuel
    have hends := ends_of_follows hus
    have hredirs : redirs (0 + fuel) (ds ++ (ds' ++ us)) = .ok (rs, ds' ++ us) := by
      apply redirs_complete hrs (head_not_redirects hws (ends_not_redirects hends))
      rw [List.length_append]
      omega
    have hargs : args (0 + fuel) 0 (ds' ++ us) = .ok (ws, rs', us) := by
      apply args_complete hws hends
      . omega
      . omega
    dsimp only [parse]
    rw [List.append_assoc, exec, if_neg (head_ne_lpar hrs hws hends), hredirs, ok_bind]
    dsimp only
    rw [hargs, ok_bind]
    rfl

end Xv6.Sh.Descent
