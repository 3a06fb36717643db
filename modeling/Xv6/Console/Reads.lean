import Xv6.Console.Edit

/-!
Every run of the console: the indices of the ring never leave their order, what has been made available stays so, and the
reads return it in order.
-/

namespace Xv6.Console

variable {ι : Type}

/-- The ring at its free-running indices, and what has been read. -/
structure Good (x : State ι × History) : Prop where
  ring : Holds x.1.data x.2
  order : x.2.taken ≤ x.2.avail.length ∧ x.2.avail.length ≤ x.2.edit ∧ x.2.edit ≤ x.2.taken + INPUT_BUF
  delivered : Delivered x.2

/--
How a read ends: at a newline, with all the bytes it was asked for, or at a control-D. It takes the control-D away only
if it returns 0.
-/
structure Ends (target : Nat) (got : List UInt8) (h h' : History) : Prop where
  le : got.length ≤ target
  newline : ∀ b ∈ got.dropLast, b ≠ NEWLINE
  reason : got.length = target ∨ got.getLast? = some NEWLINE ∨ h.avail[h.taken]? = some CTRL_D
  taken : got.length ≠ target → got.getLast? ≠ some NEWLINE → h'.taken = if got = [] then h.taken + 1 else h.taken

/--
What one step does to the reads. A read that goes on has taken one more byte, or there is none and it goes to sleep, and
only a process that has been killed fails.
-/
structure Behaves (x : State ι × History) (e : Monitor.Event ι Call) (_ : Unit) (x' : State ι × History) : Prop where
  avail : x.2.avail <+: x'.2.avail
  out : x.2.out <+: x'.2.out
  goes : ∀ p target n got target' n' got', e = .step p → x.1.place p = .inside → x.1.loc p = .read target n got →
    x'.1.loc p = .read target' n' got' → target' = target ∧
      ((∃ b, got' = got ++ [b]) ∨ x.2.taken = x.2.avail.length ∧ got' = got ∧ x'.1.place p = .sleepAcquire)
  returns : ∀ p target n got target' got', x.1.loc p = .read target n got → x'.1.loc p = .returned target' got' →
    target' = target ∧ Ends target got' x.2 x'.2
  fails : ∀ p target n got got', x.1.loc p = .read target n got → x'.1.loc p = .failed got' → x.1.killed p = true

structure Inv (x : State ι × History) : Prop where
  ring : Holds x.1.data x.2
  delivered : Delivered x.2
  reads : ∀ p target n got, x.1.loc p = .read target n got → n + got.length = target ∧ ∀ b ∈ got, b ≠ NEWLINE

theorem Inv.good {x : State ι × History} (hx : Inv x) : Good x :=
  ⟨hx.ring, ⟨hx.ring.le, Holds.avail_le x.2, hx.ring.room⟩, hx.delivered⟩

/-- What one round of a read does to the ring, the history and itself. -/
structure Round (killed : Bool) (d : Input) (h : History) (target : Nat) (got : List UInt8) (d' : Input) (h' : History)
    (l : Loc) (next : Monitor.Next) : Prop where
  ring : Holds d' h'
  delivered : Delivered h'
  avail : h'.avail = h.avail
  out : h.out <+: h'.out
  reads : ∀ target' n' got', l = .read target' n' got' → n' + got'.length = target' ∧ ∀ b ∈ got', b ≠ NEWLINE
  goes : ∀ target' n' got', l = .read target' n' got' → target' = target ∧
    ((∃ b, got' = got ++ [b]) ∨ h.taken = h.avail.length ∧ got' = got ∧ next = .wait)
  returns : ∀ target' got', l = .returned target' got' → target' = target ∧ Ends target got' h h'
  fails : ∀ got', l = .failed got' → killed = true

section

variable {d d' : Input} {h : History} {killed : Bool} {target n : Nat} {got : List UInt8} {l : Loc} {next : Monitor.Next}

theorem Round.returned {h' : History} {got' : List UInt8} (hring : Holds d' h') (hdelivered : Delivered h')
    (havail : h'.avail = h.avail) (hout : h.out <+: h'.out) (hends : Ends target got' h h')
    : Round killed d h target got d' h' (.returned target got') next where
  ring := hring
  delivered := hdelivered
  avail := havail
  out := hout
  reads _ _ _ heq := by cases heq
  goes _ _ _ heq := by cases heq
  returns _ _ heq := by
    cases heq
    exact ⟨rfl, hends⟩
  fails _ heq := by cases heq

theorem Round.read {h' : History} {got' : List UInt8} (hring : Holds d' h') (hdelivered : Delivered h')
    (havail : h'.avail = h.avail) (hout : h.out <+: h'.out) (hn : n + got'.length = target)
    (hgot : ∀ b ∈ got', b ≠ NEWLINE)
    (hgoes : (∃ b, got' = got ++ [b]) ∨ h.taken = h.avail.length ∧ got' = got ∧ next = .wait)
    : Round killed d h target got d' h' (.read target n got') next where
  ring := hring
  delivered := hdelivered
  avail := havail
  out := hout
  reads _ _ _ heq := by
    cases heq
    exact ⟨hn, hgot⟩
  goes _ _ _ heq := by
    cases heq
    exact ⟨rfl, hgoes⟩
  returns _ _ heq := by cases heq
  fails _ heq := by cases heq

theorem Round.failed (hring : Holds d h) (hdelivered : Delivered h)
    : Round true d h target got d h (.failed got) next where
  ring := hring
  delivered := hdelivered
  avail := rfl
  out := List.prefix_refl _
  reads _ _ _ heq := by cases heq
  goes _ _ _ heq := by cases heq
  returns _ _ heq := by cases heq
  fails _ _ := rfl

theorem record_same (l : Loc) (hgot : l.got = got) (hzero : l.zero = false) : record h got l = h := by
  unfold record
  rw [hgot, hzero]
  simp

theorem readRound_spec (hd : Holds d h) (hh : Delivered h) (hn : n + got.length = target)
    (hgot : ∀ b ∈ got, b ≠ NEWLINE) (hround : readRound killed target n got d = (d', l, next))
    : Round killed d h target got d' (record h got l) l next := by
  unfold readRound at hround
  split at hround
  . next hzero =>
    cases hround
    have hsame : record h got (.returned target got) = h := by
      apply record_same (.returned target got) rfl
      simp only [Loc.zero, ne_eq, Bool.decide_and, decide_not, Bool.and_eq_false_imp, decide_eq_false_iff_not]
      intro ht hnil
      rw [hnil] at hn
      simp_all
    rw [hsame]
    refine .returned hd hh rfl (List.prefix_refl _) ?_
    exact ⟨by omega, fun b hb => hgot b (List.dropLast_subset got hb), .inl (by omega), fun hne => absurd (by omega) hne⟩
  . split at hround
    . next hempty =>
      split at hround
      . next hkilled =>
        cases hround
        have hsame : record h got (.failed got) = h := record_same (.failed got) rfl rfl
        rw [hsame, hkilled]
        exact .failed hd hh
      . cases hround
        have hsame : record h got (.read target n got) = h := record_same (.read target n got) rfl rfl
        rw [hsame]
        exact .read hd hh rfl (List.prefix_refl _) hn hgot (.inr ⟨hd.empty_iff.mp hempty, rfl, rfl⟩)
    . next hpos hne =>
      have hfront := hd.front hne
      dsimp only at hround
      obtain ⟨c, hc⟩ : ∃ c, c = d.buf (index d.r) := ⟨_, rfl⟩
      rw [← hc] at hround hfront
      split at hround
      . next heof =>
        rw [heof] at hfront
        cases hround
        split
        . next hlt =>
          -- the control-D stays
          have hnil : got ≠ [] := by
            rintro rfl
            simp at hn
            omega
          have hsame : record h got (.returned target got) = h := by
            apply record_same (.returned target got) rfl
            simp [Loc.zero, hnil]
          rw [hsame]
          refine .returned hd hh rfl (List.prefix_refl _) ?_
          refine ⟨by omega, fun b hb => hgot b (List.dropLast_subset got hb), .inr (.inr hfront), fun _ _ => ?_⟩
          rw [if_neg hnil]
        . next hge =>
          -- the control-D is all that there is
          have hnil : got = [] := List.eq_nil_of_length_eq_zero (by omega)
          subst hnil
          have hzero : record h [] (.returned target []) = { h with zeros := h.zeros + 1 } := by
            have ht : target ≠ 0 := by
              simp only [List.length_nil] at hn
              omega
            simp [record, Loc.got, Loc.zero, ht]
          rw [hzero]
          refine .returned (hd.advance _ hne rfl rfl rfl) (hh.zero hfront) rfl (List.prefix_refl _) ?_
          exact ⟨Nat.zero_le _, fun _ hb => absurd hb List.not_mem_nil, .inr (.inr hfront), fun _ _ => rfl⟩
      . next hbyte =>
        have hrecord : ∀ l : Loc, l.got = got ++ [c] → l.zero = false →
            record h got l = { h with out := h.out ++ [c] } := by
          intro l hl hz
          unfold record
          rw [hl, hz, List.drop_left]
          rfl
        have htaken : ({ h with out := h.out ++ [c] } : History).taken = h.taken + 1 := by
          simp only [History.taken, List.length_append, List.length_singleton]
          omega
        have hring := hd.advance { h with out := h.out ++ [c] } hne rfl rfl htaken
        have hdelivered := hh.byte hfront hbyte
        split at hround
        . next hnewline =>
          cases hround
          rw [hrecord _ rfl (by simp [Loc.zero])]
          refine .returned hring hdelivered rfl (List.prefix_append _ _) ?_
          refine ⟨?_, ?_, .inr (.inl ?_), fun _ hlast => absurd ?_ hlast⟩
          . rw [List.length_append, List.length_singleton]
            omega
          . rw [List.dropLast_concat]
            exact hgot
          . rw [List.getLast?_concat, hnewline]
          . rw [List.getLast?_concat, hnewline]
        . next hother =>
          cases hround
          rw [hrecord _ rfl rfl]
          refine .read hring hdelivered rfl (List.prefix_append _ _) ?_ ?_ (.inl ⟨c, rfl⟩)
          . rw [List.length_append, List.length_singleton]
            omega
          . intro b hb
            rcases List.mem_append.mp hb with hb | hb
            . exact hgot b hb
            . rw [List.mem_singleton.mp hb]
              exact hother

end

variable [DecidableEq ι] {s s' : State ι} {h : History} {x x' : State ι × History} {e : Monitor.Event ι Call} {o : Unit}
  {p : ι}

-- Nothing happens to any read, and `p`, which is in none, goes to `l`.
theorem Inv.quiet {l : Loc} (hx : Inv (s, h)) (hdata : s'.data = s.data) (hloc : s'.loc = Function.update s.loc p l)
    (he : ∀ q, e = .step q → q = p) (hnone : ∀ target n got, s.loc p ≠ .read target n got)
    (hreads : ∀ target n got, l = .read target n got → n + got.length = target ∧ ∀ b ∈ got, b ≠ NEWLINE)
    : Inv (s', h) ∧ Behaves (s, h) e o (s', h) := by
  have hread : ∀ q target n got, s.loc q = .read target n got → q ≠ p ∧ s'.loc q = .read target n got := by
    intro q target n got hq
    have hqp : q ≠ p := by
      rintro rfl
      exact hnone target n got hq
    exact ⟨hqp, by rw [hloc, Function.update_of_ne hqp, hq]⟩
  constructor
  . refine ⟨?_, hx.delivered, ?_⟩
    . dsimp only
      rw [hdata]
      exact hx.ring
    . intro q target n got hq
      dsimp only at hq
      by_cases hqp : q = p
      . rw [hloc, hqp, Function.update_self] at hq
        exact hreads target n got hq
      . rw [hloc, Function.update_of_ne hqp] at hq
        exact hx.reads q target n got hq
  . constructor
    . exact List.prefix_refl _
    . exact List.prefix_refl _
    . intro q target n got target' n' got' hstep _ hq _
      exact absurd (he q hstep) (hread q target n got hq).1
    . intro q target n got target' got' hq hq'
      rw [(hread q target n got hq).2] at hq'
      cases hq'
    . intro q target n got got' hq hq'
      rw [(hread q target n got hq).2] at hq'
      cases hq'

theorem intr_inv {c : UInt8} {cs : List UInt8} (hx : Inv (s, h)) (hp : s.loc p = .intr (c :: cs)) (he : e = .step p)
    (hdata : s'.data = (typed s.data c).1) (hloc : s'.loc = Function.update s.loc p (.intr cs))
    : Inv (s', h.typed c) ∧ Behaves (s, h) e o (s', h.typed c) := by
  obtain ⟨hout, -, havail⟩ := typed_out h c
  have hread : ∀ q target n got, s.loc q = .read target n got → q ≠ p ∧ s'.loc q = .read target n got := by
    intro q target n got hq
    have hqp : q ≠ p := by
      rintro rfl
      rw [hp] at hq
      cases hq
    exact ⟨hqp, by rw [hloc, Function.update_of_ne hqp, hq]⟩
  constructor
  . refine ⟨?_, hx.delivered.typed hx.ring.le c, ?_⟩
    . dsimp only
      rw [hdata]
      exact hx.ring.typed c
    . intro q target n got hq
      dsimp only at hq
      by_cases hqp : q = p
      . rw [hloc, hqp, Function.update_self] at hq
        cases hq
      . rw [hloc, Function.update_of_ne hqp] at hq
        exact hx.reads q target n got hq
  . constructor
    . exact havail
    . exact hout ▸ List.prefix_refl _
    . intro q target n got target' n' got' hstep _ hq _
      rw [he] at hstep
      cases hstep
      exact absurd rfl (hread p target n got hq).1
    . intro q target n got target' got' hq hq'
      rw [(hread q target n got hq).2] at hq'
      cases hq'
    . intro q target n got got' hq hq'
      rw [(hread q target n got hq).2] at hq'
      cases hq'

theorem read_inv {target n : Nat} {got : List UInt8} {l : Loc} {next : Monitor.Next} (hx : Inv (s, h))
    (hp : s.loc p = .read target n got) (he : e = .step p)
    (hround : readRound (s.killed p) target n got s.data = (s'.data, l, next))
    (hloc : s'.loc = Function.update s.loc p l) (hplace : s'.place p = next.place)
    : Inv (s', record h got l) ∧ Behaves (s, h) e o (s', record h got l) := by
  obtain ⟨hn, hgot⟩ := hx.reads p target n got hp
  have hspec := readRound_spec hx.ring hx.delivered hn hgot hround
  have hself : s'.loc p = l := by rw [hloc, Function.update_self]
  have hother : ∀ q, q ≠ p → s'.loc q = s.loc q := by
    intro q hqp
    rw [hloc, Function.update_of_ne hqp]
  constructor
  . refine ⟨hspec.ring, hspec.delivered, ?_⟩
    intro q target' n' got' hq
    dsimp only at hq
    by_cases hqp : q = p
    . rw [hqp, hself] at hq
      exact hspec.reads target' n' got' hq
    . rw [hother q hqp] at hq
      exact hx.reads q target' n' got' hq
  . constructor
    . exact hspec.avail ▸ List.prefix_refl _
    . exact hspec.out
    . intro q target' n' got' target'' n'' got'' hstep _ hq hq'
      rw [he] at hstep
      cases hstep
      dsimp only at hq hq' ⊢
      rw [hp] at hq
      cases hq
      rw [hself] at hq'
      obtain ⟨htarget, hgoes⟩ := hspec.goes target'' n'' got'' hq'
      refine ⟨htarget, hgoes.imp_right fun ⟨hempty, hsame, hwait⟩ => ⟨hempty, hsame, ?_⟩⟩
      rw [hplace, hwait]
      rfl
    . intro q target' n' got' target'' got'' hq hq'
      dsimp only at hq hq'
      by_cases hqp : q = p
      . rw [hqp, hp] at hq
        cases hq
        rw [hqp, hself] at hq'
        exact hspec.returns target'' got'' hq'
      . rw [hother q hqp, hq] at hq'
        cases hq'
    . intro q target' n' got' got'' hq hq'
      dsimp only at hq hq'
      by_cases hqp : q = p
      . rw [hqp, hself] at hq'
        exact hqp ▸ hspec.fails got'' hq'
      . rw [hother q hqp, hq] at hq'
        cases hq'

theorem step_inv (hx : Inv x) (hs : Machine.watch (program : Monitor.Program ι _ _ _).step observe x e = some (x', o))
    : Inv x' ∧ Behaves x e o x' := by
  obtain ⟨hstep, hh⟩ := Machine.watch_eq_some hs
  obtain ⟨s, h⟩ := x
  obtain ⟨s', h'⟩ := x'
  dsimp only at hstep hh
  rcases Monitor.step_data hstep with ⟨p, l, n, rfl, hp, hact, hloc⟩ | ⟨p, c, l, enters, rfl, hout, hloc⟩ |
    ⟨hdata, hloc, hnot⟩
  . have hself : s'.loc p = l := by rw [hloc, Function.update_self]
    have hplace : s'.place p = n.place := by
      rw [Monitor.step_inside hstep hp]
      exact congrArg (fun r => Monitor.Next.place r.2.2) hact
    have he : ∀ q, Monitor.Event.step p = (.step q : Monitor.Event ι Call) → q = p := by
      intro q heq
      cases heq
      rfl
    unfold observe at hh
    dsimp only at hh
    rw [if_pos hp, hself] at hh
    change act p (s.killed p) (s.loc p) s.data = _ at hact
    unfold act at hact
    cases hl : s.loc p with
    | intr cs =>
      rw [hl] at hh hact
      cases cs with
      | nil =>
        simp only [Prod.mk.injEq] at hact
        obtain ⟨hd, rfl, -⟩ := hact
        subst hh
        exact hx.quiet hd.symm hloc he (by simp [hl]) nofun
      | cons c cs =>
        simp only [Prod.mk.injEq] at hact
        obtain ⟨hd, rfl, -⟩ := hact
        subst hh
        exact intr_inv hx hl rfl hd.symm hloc
    | read target n got =>
      rw [hl] at hh hact
      subst hh
      exact read_inv hx hl rfl hact hloc hplace
    | idle | returned target got | failed got =>
      rw [hl] at hh hact
      simp only [Prod.mk.injEq] at hact
      obtain ⟨hd, rfl, -⟩ := hact
      subst hh
      exact hx.quiet hd.symm hloc he (by simp [hl]) nofun
  . subst hh
    change outside p c (s.loc p) s.data = some (s'.data, l, enters) at hout
    unfold outside at hout
    split at hout
    . cases hout
    . next hidle =>
      have hnone : ∀ target n got, s.loc p ≠ .read target n got := by
        intro _ _ _ hread
        rw [hread] at hidle
        exact hidle rfl
      split at hout
      . simp only [Option.some.injEq, Prod.mk.injEq] at hout
        obtain ⟨hd, rfl, -⟩ := hout
        exact hx.quiet hd.symm hloc nofun hnone nofun
      . simp only [Option.some.injEq, Prod.mk.injEq] at hout
        obtain ⟨hd, rfl, -⟩ := hout
        refine hx.quiet hd.symm hloc nofun hnone ?_
        intro target n got heq
        cases heq
        exact ⟨rfl, nofun⟩
  . have hsame : observe s e s' h = h := by
      unfold observe
      split
      . next p => exact if_neg (hnot p rfl)
      . rfl
    rw [hsame] at hh
    subst hh
    constructor
    . refine ⟨?_, hx.delivered, ?_⟩
      . dsimp only
        rw [hdata]
        exact hx.ring
      . intro q target n got hq
        dsimp only at hq
        rw [hloc] at hq
        exact hx.reads q target n got hq
    . constructor
      . exact List.prefix_refl _
      . exact List.prefix_refl _
      . intro q _ _ _ _ _ _ hstep hinside
        exact absurd hinside (hnot q hstep)
      . intro q target n got target' got' hq hq'
        dsimp only at hq hq'
        rw [hloc, hq] at hq'
        cases hq'
      . intro q target n got got' hq hq'
        dsimp only at hq hq'
        rw [hloc, hq] at hq'
        cases hq'

omit [DecidableEq ι] in
theorem init_inv : Inv ((State.init : State ι), History.init) where
  ring := by
    refine ⟨rfl, rfl, rfl, Nat.le_refl _, Nat.zero_le _, ?_, nofun⟩
    intro k b _ hget
    cases hget
  delivered := ⟨rfl, rfl⟩
  reads := nofun

end Xv6.Console
