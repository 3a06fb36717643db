import Xv6.Sh.Parse
import Xv6.Sh.Terminate

/-!
`parsecmd` accepts the lines of the grammar and panics at all others.
-/

namespace Xv6.Sh

open Outcome

variable {mem : Mem} {es s fuel : Nat} {line : List Char} {ts us : List Token} {a b : Ast}

theorem length_tokens_le (cs : List Char) : (tokens cs).length ≤ cs.length := by
  fun_induction tokens cs with
  | case1 => simp
  | case10 c cs _ _ _ _ _ _ _ _ hws ih =>
    simp only [List.length_cons]
    omega
  | case11 c cs _ _ _ _ _ _ _ _ hws ih =>
    have := (List.dropWhile_suffix wordChar (l := cs)).length_le
    simp only [List.length_cons]
    omega
  | _ => simp only [List.length_cons]; omega

theorem IsString.at (h : IsString mem s line) : At mem (s + line.length) s (tokens line) := by
  constructor
  . refine ⟨Nat.le_add_right _ _, h.nul, ?_⟩
    intro i hle hlt hnul
    have hget := h.get (i - s) (by omega)
    rw [Nat.add_sub_cancel' hle, hnul] at hget
    exact h.ne_nul (hget ▸ List.getElem_mem _)
  . unfold rest text
    rw [Nat.add_sub_cancel_left]
    congr 1
    apply List.ext_getElem
    . simp
    . intro j _ hj
      simp [h.get j hj]

-- The cursor is at the end of the line when no token is left.
theorem At.peek_es (h : At mem es s ts) : (Sh.peek mem es s []).1 = es ↔ ts = [] := by
  rcases skip_cases h.inLine with ⟨hnil, heq⟩ | ⟨t, ht, hcons⟩
  . rw [h.rest] at hnil
    exact ⟨fun _ => hnil, fun _ => heq⟩
  . rw [h.rest] at hcons
    rw [hcons]
    have := Nat.ne_of_lt (Nat.lt_of_lt_of_le ht.lt ht.le)
    simp [Sh.peek, this]

theorem line_of_derives (h : Derives .line ts a) (hfuel : 4 * ts.length + 4 ≤ fuel)
    : Descent.line fuel ts = .ok (a, []) := by
  have hend : ∀ t ∈ ([] : List Token).head?, Descent.follows .line t := by simp
  have := Descent.complete h hend hfuel
  rwa [List.append_nil] at this

theorem derives_iff (hline : Descent.line fuel ts = .ok (a, [])) (hfuel : 4 * ts.length + 4 ≤ fuel)
    : Derives .line ts b ↔ b = a := by
  constructor
  . intro h
    have hb := line_of_derives h hfuel
    rw [hline] at hb
    cases hb
    rfl
  . rintro rfl
    obtain ⟨ds, rfl, h⟩ := (Descent.accepts fuel).line _ _ _ hline
    rwa [List.append_nil]

theorem not_derives {r : Except Stop (Ast × List Token)} (hline : Descent.line fuel ts = r) (hr : ∀ b, r ≠ .ok (b, []))
    (hfuel : 4 * ts.length + 4 ≤ fuel)
    : ∀ b, ¬ Derives .line ts b := by
  intro b hb
  rw [line_of_derives hb hfuel] at hline
  exact hr b hline.symm

theorem parsecmd_spec (h : IsString mem s line) (hfuel : 4 * line.length + 4 ≤ fuel)
    : (∃ cmd heap mem' a, parsecmd mem (s + line.length) fuel s = .ok (cmd, heap, mem') ∧
        (∀ b, Derives .line (tokens line) b ↔ b = a) ∧ Tree (fun q _ w => IsString mem' q w) heap cmd a) ∨
      ((∃ msg, parsecmd mem (s + line.length) fuel s = .error (.panic msg)) ∧ ∀ b, ¬ Derives .line (tokens line) b) := by
  have hlen := length_tokens_le line
  have hfuel' : 4 * (tokens line).length + 4 ≤ fuel := by omega
  have hstop := (Descent.suffices_fuel fuel).line _ hfuel'
  have hagree := (simulates mem (s + line.length) fuel).line (c := ⟨s, []⟩) h.at
  unfold parsecmd
  cases hline : Descent.line fuel (tokens line) with
  | error e =>
    rw [hline] at hagree hstop
    cases hparse : parseline mem (s + line.length) fuel ⟨s, []⟩ with
    | ok r =>
      rw [hparse] at hagree
      cases hagree
    | error e' =>
      rw [hparse] at hagree
      cases hagree
      right
      cases e with
      | fuel => exact absurd rfl hstop
      | panic msg => exact ⟨⟨msg, rfl⟩, not_derives hline (by simp) hfuel'⟩
  | ok y =>
    obtain ⟨a, us⟩ := y
    rw [hline] at hagree
    cases hparse : parseline mem (s + line.length) fuel ⟨s, []⟩ with
    | error e =>
      rw [hparse] at hagree
      cases hagree
    | ok x =>
      obtain ⟨cmd, c⟩ := x
      rw [hparse] at hagree
      cases hagree with
      | ok hparsed =>
        have hpeek := hparsed.rest.peek_es
        rw [ok_bind]
        dsimp only at hpeek ⊢
        cases us with
        | nil =>
          left
          rw [if_neg (not_not_intro (hpeek.mpr rfl))]
          exact ⟨cmd, c.heap, _, a, rfl, fun b => derives_iff hline hfuel',
            nulterminate_tree hparsed.tree hparsed.tree.lt_length⟩
        | cons t us =>
          right
          rw [if_pos (by simp [hpeek])]
          exact ⟨⟨"syntax", rfl⟩, not_derives hline (by simp) hfuel'⟩

def load (line : List Char) : Mem :=
  fun i => line.getD i '\x00'

theorem load_isString (h : '\x00' ∉ line) : IsString (load line) 0 line := by
  constructor
  . intro j hj
    simp [load, hj]
  . simp [load]
  . exact h

theorem parsecmd_spec_pipeline
    : (∃ cmd heap mem' a, parsecmd (load "(ls)>f|wc&".toList) 10 44 0 = .ok (cmd, heap, mem') ∧
        (∀ b, Derives .line (tokens "(ls)>f|wc&".toList) b ↔ b = a) ∧
        Tree (fun q _ w => IsString mem' q w) heap cmd a) ∨
      ((∃ msg, parsecmd (load "(ls)>f|wc&".toList) 10 44 0 = .error (.panic msg)) ∧
        ∀ b, ¬ Derives .line (tokens "(ls)>f|wc&".toList) b) :=
  parsecmd_spec (load_isString (by decide)) (by decide)

end Xv6.Sh
