import Xv6.Sh.Tree

/-!
`nulterminate` makes strings of the words.
-/

namespace Xv6.Sh

variable {S S' : Nat → Nat → Word → Prop} {mem : Mem} {heap : List Node} {fuel cmd p q eq : Nat} {a : Ast} {w : Word}
  {ws : List Word} {argv eargv : List Nat}

structure IsString (mem : Mem) (q : Nat) (w : Word) : Prop where
  get : ∀ j (h : j < w.length), mem (q + j) = w[j]
  nul : mem (q + w.length) = '\x00'
  ne_nul : '\x00' ∉ w

-- The places that `nulterminate` writes.
def cuts (heap : List Node) : Nat → Nat → List Nat
  | 0, _ => []
  | fuel + 1, cmd =>
    match heap[cmd]? with
    | some (.exec _ eargv) => eargv
    | some (.redir cmd _ efile _ _) => efile :: cuts heap fuel cmd
    | some (.pipe left right) | some (.list left right) => cuts heap fuel left ++ cuts heap fuel right
    | some (.back cmd) => cuts heap fuel cmd
    | none => []

theorem foldl_update (eargv : List Nat) (mem : Mem) (i : Nat)
    : eargv.foldl (fun mem eq => Function.update mem eq '\x00') mem i = if i ∈ eargv then '\x00' else mem i := by
  induction eargv generalizing mem with
  | nil => rfl
  | cons eq eargv ih =>
    simp only [List.foldl_cons, ih, List.mem_cons, Function.update_apply]
    by_cases hmem : i ∈ eargv <;> simp [hmem]

theorem nulterminate_apply (heap : List Node) (fuel cmd : Nat) (mem : Mem) (i : Nat)
    : nulterminate heap fuel cmd mem i = if i ∈ cuts heap fuel cmd then '\x00' else mem i := by
  induction fuel generalizing cmd mem with
  | zero => rfl
  | succ fuel ih =>
    have htwo : ∀ left right, nulterminate heap fuel right (nulterminate heap fuel left mem) i =
        if i ∈ cuts heap fuel left ++ cuts heap fuel right then '\x00' else mem i := by
      intro left right
      simp only [ih, List.mem_append]
      by_cases hmem : i ∈ cuts heap fuel right <;> simp [hmem]
    rw [nulterminate, cuts]
    cases heap[cmd]? with
    | none => rfl
    | some node =>
      cases node with
      | exec argv eargv => exact foldl_update eargv mem i
      | redir c q efile mode fd =>
        simp only [Function.update_apply, ih, List.mem_cons]
        by_cases hi : i = efile <;> simp [hi]
      | pipe left right => exact htwo left right
      | list left right => exact htwo left right
      | back c => exact ih c mem

theorem Args.imp (h : Args S argv eargv ws) (himp : ∀ q eq w, eq ∈ eargv → S q eq w → S' q eq w)
    : Args S' argv eargv ws := by
  induction h with
  | nil => exact .nil
  | cons hw h ih =>
    apply Args.cons
    . exact himp _ _ _ List.mem_cons_self hw
    . apply ih
      intro q eq w hmem
      exact himp q eq w (List.mem_cons_of_mem _ hmem)

theorem Args.exists_of_mem (h : Args S argv eargv ws) (hmem : eq ∈ eargv) : ∃ q w, S q eq w := by
  induction h with
  | nil => cases hmem
  | cons hw h ih =>
    rcases List.mem_cons.mp hmem with rfl | hmem
    . exact ⟨_, _, hw⟩
    . exact ih hmem

theorem Tree.imp (h : Tree S heap p a) (himp : ∀ q eq w, S q eq w → S' q eq w) : Tree S' heap p a := by
  induction h with
  | exec hnode hargs => exact .exec hnode (hargs.imp fun q eq w _ => himp q eq w)
  | redir hnode hlt hfile _ ih => exact .redir hnode hlt (himp _ _ _ hfile) ih
  | pipe hnode hleft hright _ _ iha ihb => exact .pipe hnode hleft hright iha ihb
  | list hnode hleft hright _ _ iha ihb => exact .list hnode hleft hright iha ihb
  | back hnode hlt _ ih => exact .back hnode hlt ih

theorem exists_succ (h : p < fuel) : ∃ k, fuel = k + 1 ∧ p ≤ k :=
  ⟨fuel - 1, by omega, by omega⟩

theorem Tree.subset {l l' : List Nat} (h : Tree (fun q eq w => S q eq w ∧ eq ∈ l) heap p a) (hsub : l ⊆ l')
    : Tree (fun q eq w => S q eq w ∧ eq ∈ l') heap p a :=
  h.imp fun _ _ _ hw => ⟨hw.1, hsub hw.2⟩

theorem Tree.cut (h : Tree S heap p a) (hfuel : p < fuel)
    : Tree (fun q eq w => S q eq w ∧ eq ∈ cuts heap fuel p) heap p a := by
  induction h generalizing fuel with
  | exec hnode hargs =>
    obtain ⟨k, rfl, hk⟩ := exists_succ hfuel
    rw [cuts, hnode]
    exact .exec hnode (hargs.imp fun q eq w hmem hw => ⟨hw, hmem⟩)
  | redir hnode hlt hfile _ ih =>
    obtain ⟨k, rfl, hk⟩ := exists_succ hfuel
    rw [cuts, hnode]
    have hcmd := ih (Nat.lt_of_lt_of_le hlt hk)
    exact .redir hnode hlt ⟨hfile, List.mem_cons_self⟩ (hcmd.subset (List.subset_cons_self _ _))
  | pipe hnode hleft hright _ _ iha ihb =>
    obtain ⟨k, rfl, hk⟩ := exists_succ hfuel
    rw [cuts, hnode]
    have ha := iha (Nat.lt_of_lt_of_le hleft hk)
    have hb := ihb (Nat.lt_of_lt_of_le hright hk)
    exact .pipe hnode hleft hright (ha.subset (List.subset_append_left _ _)) (hb.subset (List.subset_append_right _ _))
  | list hnode hleft hright _ _ iha ihb =>
    obtain ⟨k, rfl, hk⟩ := exists_succ hfuel
    rw [cuts, hnode]
    have ha := iha (Nat.lt_of_lt_of_le hleft hk)
    have hb := ihb (Nat.lt_of_lt_of_le hright hk)
    exact .list hnode hleft hright (ha.subset (List.subset_append_left _ _)) (hb.subset (List.subset_append_right _ _))
  | back hnode hlt _ ih =>
    obtain ⟨k, rfl, hk⟩ := exists_succ hfuel
    rw [cuts, hnode]
    exact .back hnode hlt (ih (Nat.lt_of_lt_of_le hlt hk))

theorem Tree.exists_of_cut (h : Tree S heap p a) (hfuel : p < fuel) (hmem : eq ∈ cuts heap fuel p)
    : ∃ q w, S q eq w := by
  induction h generalizing fuel with
  | exec hnode hargs =>
    obtain ⟨k, rfl, hk⟩ := exists_succ hfuel
    rw [cuts, hnode] at hmem
    exact hargs.exists_of_mem hmem
  | redir hnode hlt hfile _ ih =>
    obtain ⟨k, rfl, hk⟩ := exists_succ hfuel
    rw [cuts, hnode] at hmem
    rcases List.mem_cons.mp hmem with rfl | hmem
    . exact ⟨_, _, hfile⟩
    . exact ih (Nat.lt_of_lt_of_le hlt hk) hmem
  | pipe hnode hleft hright _ _ iha ihb | list hnode hleft hright _ _ iha ihb =>
    obtain ⟨k, rfl, hk⟩ := exists_succ hfuel
    rw [cuts, hnode] at hmem
    rcases List.mem_append.mp hmem with hmem | hmem
    . exact iha (Nat.lt_of_lt_of_le hleft hk) hmem
    . exact ihb (Nat.lt_of_lt_of_le hright hk) hmem
  | back hnode hlt _ ih =>
    obtain ⟨k, rfl, hk⟩ := exists_succ hfuel
    rw [cuts, hnode] at hmem
    exact ih (Nat.lt_of_lt_of_le hlt hk) hmem

theorem nulterminate_tree (h : Tree (Span mem) heap p a) (hfuel : p < fuel)
    : Tree (fun q _ w => IsString (nulterminate heap fuel p mem) q w) heap p a := by
  apply (h.cut hfuel).imp
  rintro q eq w ⟨hspan, hcut⟩
  have hstop : ∀ i ∈ cuts heap fuel p, ¬ wordChar (mem i) ∨ mem i = '\x00' := by
    intro i hi
    obtain ⟨q', w', hspan'⟩ := h.exists_of_cut hfuel hi
    exact hspan'.stop
  constructor
  . intro j hj
    have hword := hspan.word w[j] (List.getElem_mem hj)
    rw [nulterminate_apply, if_neg]
    . exact hspan.get j hj
    . intro hmem
      have := hstop _ hmem
      rw [hspan.get j hj] at this
      exact this.elim (fun hnot => hnot hword.1) hword.2
  . rw [nulterminate_apply, ← hspan.length, if_pos hcut]
  . intro hmem
    exact (hspan.word _ hmem).2 rfl

end Xv6.Sh
