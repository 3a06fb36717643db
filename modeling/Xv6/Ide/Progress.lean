import Xv6.Ide.Transfer

/-!
No call of `iderw` is left behind. As long as somebody sleeps, the controller is at work or its interrupt is pending, and
at most `NBUF` commands end before the caller can go on, whatever else happens in between.
-/

namespace Xv6.Ide

variable {ι β : Type}

-- How many commands have to end until the buffer is done.
def rank (l : List Slot) (b : Slot) : Nat :=
  if l.idxOf b < l.length then l.idxOf b + 1 else 0

theorem rank_eq (l : List Slot) (b : Slot) : rank l b = if b ∈ l then l.idxOf b + 1 else 0 := by
  unfold rank
  simp only [List.idxOf_lt_length_iff]

theorem rank_le (l : List Slot) (b : Slot) : rank l b ≤ l.length := by
  rw [rank_eq]
  split
  . next h => exact List.idxOf_lt_length_of_mem h
  . exact Nat.zero_le _

theorem rank_snoc {l : List Slot} {b b' : Slot} (h : b ≠ b') : rank (l ++ [b']) b = rank l b := by
  rw [rank_eq, rank_eq]
  by_cases hb : b ∈ l
  . rw [if_pos hb, if_pos (List.mem_append_left _ hb), List.idxOf_append_of_mem hb]
  . rw [if_neg hb, if_neg (by simp [hb, h])]

theorem rank_tail {l : List Slot} {b b' : Slot} (h : b' ∉ l) : rank l b = rank (b' :: l) b - 1 := by
  rw [rank_eq, rank_eq]
  by_cases heq : b = b'
  . subst heq
    simp [h]
  . by_cases hb : b ∈ l
    . rw [if_pos hb, if_pos (List.mem_cons_of_mem _ hb), List.idxOf_cons_ne _ (Ne.symm heq)]
      omega
    . simp [hb, heq]

-- The interrupt of a command that has ended.
def ends (s : State ι β) : Event ι β → Nat
  | .ideintr =>
    match s.ctl with
    | .done _ => 1
    | _ => 0
  | _ => 0

variable [DecidableEq ι] (havedisk1 : Bool)

def ended (s : State ι β) : List (Event ι β) → Nat
  | [] => 0
  | e :: es =>
    match State.step havedisk1 s e with
    | some (s', _) => ends s e + ended s' es
    | none => 0

variable {havedisk1} {s s' : State ι β} {l : List Slot}

theorem step_queue (h : Inv s l) {e : Event ι β} {o : List (Output ι β)}
    (hs : State.step havedisk1 s e = some (s', o)) (hlive : s'.halted = false)
    : ∃ l', Inv s' l' ∧ ∀ p b, (s.pc p).buf = some b →
        .ret p b ∈ o ∨ ((s'.pc p).buf = some b ∧ rank l' b ≤ rank l b - ends s e) := by
  unfold State.step at hs
  split at hs
  . simp at hs
  . next hnot =>
    have hhalted : s.halted = false := by simpa using hnot
    cases e with
    | access c =>
      dsimp only at hs
      split at hs
      . simp at hs
      . next x v haccess =>
        cases hs
        have hfree : ∀ p, (s.pc p).buf ≠ some c.slot := by
          intro p hp
          have hout := out_of_access haccess (h.owned p c.slot hp)
          rw [hout] at hp
          simp [Pc.buf] at hp
        exact ⟨l, h.setBuf hfree x, fun p b hp => .inr ⟨hp, Nat.le_refl _⟩⟩
    | iderw q b' =>
      dsimp only at hs
      split at hs
      . next hq =>
        split at hs
        . simp at hs
        . next s1 os hiderw =>
          cases hs
          rcases iderw_cases h hhalted hq hiderw with ⟨msg, _, hs', _⟩ | ⟨_, _, hfree, hcases⟩
          . simp [hs'] at hlive
          . rcases hcases with ⟨_, _, hs', _⟩ | ⟨_, _, hinv, _, _, _, hpc⟩
            . simp [hs'] at hlive
            . refine ⟨_, hinv, fun p b hp => .inr ⟨?_, ?_⟩⟩
              . rw [hpc, Function.update_of_ne, hp]
                rintro rfl
                simp [hq, Pc.buf] at hp
              . rw [rank_snoc]
                . exact Nat.le_refl _
                . rintro rfl
                  exact hfree p hp
      . simp at hs
    | run q =>
      dsimp only at hs
      split at hs
      . next b' hq =>
        rw [Option.some.injEq] at hs
        have hbuf : (s.pc q).buf = some b' := by rw [hq]; rfl
        rcases wait_cases h hq with ⟨_, hwait, hinv⟩ | ⟨_, hwait, hinv⟩
        . rw [hwait] at hs
          cases hs
          refine ⟨l, hinv, fun p b hp => ?_⟩
          by_cases heq : p = q
          . subst heq
            rw [hbuf, Option.some.injEq] at hp
            rw [hp]
            exact .inl List.mem_cons_self
          . refine .inr ⟨?_, Nat.le_refl _⟩
            change (Function.update s.pc q .out p).buf = _
            rw [Function.update_of_ne heq, hp]
        . rw [hwait] at hs
          cases hs
          refine ⟨l, hinv, fun p b hp => .inr ⟨?_, Nat.le_refl _⟩⟩
          rw [State.buf_setPc (x := .asleep b') hbuf.symm, hp]
      . simp at hs
    | kill q =>
      dsimp only at hs
      split at hs
      . next b' hq =>
        cases hs
        refine ⟨l, h.kill hq, fun p b hp => .inr ⟨?_, Nat.le_refl _⟩⟩
        rw [State.buf_setPc (by rw [hq]; rfl), hp]
      . simp at hs
    | disk fault =>
      dsimp only at hs
      split at hs
      . simp at hs
      . next s1 hdisk =>
        cases hs
        obtain ⟨b', t, _, _, _, hs', _, hinv⟩ := disk_cases h hdisk
        refine ⟨l, hinv, fun p b hp => .inr ⟨?_, Nat.le_refl _⟩⟩
        rw [hs', hp]
    | ideintr =>
      rcases ideintr_cases h hs with ⟨rfl, hidle, rfl, rfl⟩ | ⟨b', t, err, rfl, hctl, _, hcases⟩
      . refine ⟨_, h, fun p b hp => .inr ⟨hp, ?_⟩⟩
        simp [ends, hidle]
      . rcases hcases with ⟨hs', _⟩ | ⟨_, _, hinv, _, hpc, _⟩
        . simp [hs'] at hlive
        . refine ⟨t, hinv, fun p b hp => .inr ⟨?_, ?_⟩⟩
          . rw [hpc, State.pc_wakeup, hp]
          . rw [rank_tail (List.nodup_cons.mp h.nodup).1]
            simp [ends, hctl]

theorem halted_of_run {t : State ι β} {es : List (Event ι β)} (hrun : Machine.run (State.step havedisk1) s es = some t)
    (ht : t.halted = false)
    : s.halted = false := by
  cases es with
  | nil =>
    simp only [Machine.run_nil, Option.some.injEq] at hrun
    rwa [hrun]
  | cons e es =>
    obtain ⟨s', o, hs, _⟩ := Machine.run_cons_eq_some hrun
    cases hs' : s.halted with
    | false => rfl
    | true => simp [State.step, hs'] at hs

theorem run_queue (h : Inv s l) {t : State ι β} {es : List (Event ι β)}
    (hrun : Machine.run (State.step havedisk1) s es = some t) (ht : t.halted = false) {p : ι} {b : Slot}
    (hp : (s.pc p).buf = some b)
    : .ret p b ∈ Machine.trace (State.step havedisk1) s es ∨
      ∃ l', Inv t l' ∧ (t.pc p).buf = some b ∧ rank l' b ≤ rank l b - ended havedisk1 s es := by
  induction es generalizing s l with
  | nil =>
    simp only [Machine.run_nil, Option.some.injEq] at hrun
    subst hrun
    exact .inr ⟨l, h, hp, Nat.le_refl _⟩
  | cons e es ih =>
    obtain ⟨s', o, hs, hrest⟩ := Machine.run_cons_eq_some hrun
    obtain ⟨l', hinv, hnext⟩ := step_queue h hs (halted_of_run hrest ht)
    rw [Machine.trace_cons hs, List.mem_append]
    rcases hnext p b hp with hret | ⟨hp', hrank⟩
    . exact .inl (.inl hret)
    . rcases ih hinv hrest hp' with hret | ⟨l'', hinv', hp'', hrank'⟩
      . exact .inl (.inr hret)
      . refine .inr ⟨l'', hinv', hp'', ?_⟩
        simp only [ended, hs]
        omega

theorem exists_inv {zero : β} {buf : Slot → Buf ι β} {disk : Nat → Nat → β} {es : List (Event ι β)}
    (hrun : Machine.run (State.step havedisk1) (State.init zero buf disk) es = some s) (hs : s.halted = false)
    : ∃ l, Inv s l := by
  obtain ⟨es', a, _, _, _, hR⟩ :=
    Machine.refines_of_simulation (fun _ _ _ _ _ hR hs => step_follows hR hs) (refines_init zero buf disk) hrun
  obtain ⟨l, h⟩ := hR.live hs
  exact ⟨l, h.inv⟩

-- While a process sleeps, the controller can end its command, or the interrupt is pending.
theorem disk_works (h : Inv s l) (hs : s.halted = false) {p : ι} {b : Slot} (hp : s.pc p = .asleep b)
    : (∀ fault, ∃ s' o, State.step havedisk1 s (.disk fault) = some (s', o)) ∨
      ∃ s' o, State.step havedisk1 s .ideintr = some (s', o) ∧ ends s .ideintr = 1 := by
  have hb : b ∈ l := by
    by_cases hb : b ∈ l
    . exact hb
    . have := (h.missing p b (by rw [hp]; rfl) hb).2
      rw [hp] at this
      cases this
  cases l with
  | nil => simp at hb
  | cons b' t =>
    rcases h.serves.2 with hctl | ⟨err, hctl⟩
    . refine .inl fun fault => ?_
      unfold State.step State.disk_step
      rw [hs, if_neg (by decide), hctl, Buf.command]
      cases (s.buf b').dirty with
      | true => exact ⟨_, _, rfl⟩
      | false => exact ⟨_, _, rfl⟩
    . refine .inr ?_
      have hsome : s.idequeue = some b' := h.leads.1
      unfold State.step State.ideintr
      rw [hs, if_neg (by decide), hctl]
      simp only [hsome]
      split
      . exact ⟨_, _, rfl, by simp [ends, hctl]⟩
      . rw [State.idestart_eq rfl]
        split <;> exact ⟨_, _, rfl, by simp [ends, hctl]⟩

-- While the call sleeps, the disk works for it. Once `NBUF` commands have ended, it has returned or returns with the next
-- step of its process.
def Served (havedisk1 : Bool) (s : State ι β) (p : ι) (b : Slot) : Prop :=
  (s.pc p = .asleep b → (∀ fault, ∃ s' o, State.step havedisk1 s (.disk fault) = some (s', o)) ∨
    ∃ s' o, State.step havedisk1 s .ideintr = some (s', o) ∧ ends s .ideintr = 1) ∧
  ∀ es t, Machine.run (State.step havedisk1) s es = some t → t.halted = false → NBUF ≤ ended havedisk1 s es →
    .ret p b ∈ Machine.trace (State.step havedisk1) s es ∨
      (t.pc p = .awake b ∧ (t.buf b).synced ∧ ∃ t', State.step havedisk1 t (.run p) = some (t', [.ret p b]))

/-- No call of `iderw` is left behind, whatever happens to the other ones. -/
theorem iderw_served (havedisk1 : Bool) (zero : β) (buf : Slot → Buf ι β) (disk : Nat → Nat → β)
    (es : List (Event ι β)) (s : State ι β)
    (hrun : Machine.run (State.step havedisk1) (State.init zero buf disk) es = some s) (hs : s.halted = false)
    (p : ι) (b : Slot) (hp : (s.pc p).buf = some b)
    : Served havedisk1 s p b := by
  obtain ⟨l, h⟩ := exists_inv hrun hs
  refine ⟨disk_works h hs, ?_⟩
  intro es' t hrun' ht hended
  rcases run_queue h hrun' ht hp with hret | ⟨l', h', hp', hrank⟩
  . exact .inl hret
  . have hzero : rank l' b = 0 := by
      have := rank_le l b
      have := h.length_le
      omega
    have hb : b ∉ l' := by
      intro hmem
      rw [rank_eq] at hzero
      rw [if_pos hmem] at hzero
      omega
    obtain ⟨hsync, hawake⟩ := h'.missing p b hp' hb
    refine .inr ⟨hawake, hsync, t.setPc p .out, ?_⟩
    unfold State.step State.wait
    rw [ht, if_neg (by decide)]
    simp [hawake, hsync]

theorem iderw_served_one
    : ∃ s, Machine.run (State.step true) (State.init 0 exampleBufs fun _ k => k)
        [.access (.acquiresleep (0 : Fin 1) 0), .iderw 0 0] = some s ∧ Served true s 0 0 :=
  ⟨_, rfl, iderw_served true 0 exampleBufs _ [.access (.acquiresleep (0 : Fin 1) 0), .iderw 0 0] _ rfl rfl 0 0 rfl⟩

end Xv6.Ide
