import Xv6.Ide.Invariant
import Xv6.Ide.Spec

/-!
What each step of the driver does while the invariant holds.
-/

namespace Xv6.Ide

open Spec (objection transfer)

variable {ι β : Type}

theorem and_byte (x : Nat) : x &&& 0xff = x % 2 ^ 8 :=
  Nat.and_two_pow_sub_one_eq_mod x 8

theorem and_nibble (x : Nat) : x &&& 0x0f = x % 2 ^ 4 :=
  Nat.and_two_pow_sub_one_eq_mod x 4

theorem or_shiftLeft {i a : Nat} (b : Nat) (h : a < 2 ^ i) : a ||| b <<< i = a + b * 2 ^ i := by
  rw [Nat.or_comm, ← Nat.shiftLeft_add_eq_or_of_lt h, Nat.shiftLeft_eq, Nat.add_comm]

-- 0x1f6: the bits that are always set, the drive, and the highest bits of the sector.
theorem regs_head (dev blockno : Nat)
    : (regs dev blockno).head = blockno / 2 ^ 24 % 2 ^ 4 + (dev % 2 + 14) * 2 ^ 4 := by
  have hdev : 0xe0 ||| (dev &&& 1) <<< 4 = (dev % 2 + 14) * 2 ^ 4 := by
    rw [Nat.and_one_is_mod]
    rcases Nat.mod_two_eq_zero_or_one dev with h | h <;> rw [h] <;> rfl
  unfold regs sector_per_block
  dsimp only
  rw [hdev, Nat.mul_one, Nat.shiftRight_eq_div_pow, and_nibble, Nat.or_comm, ← Nat.shiftLeft_eq,
    or_shiftLeft _ (Nat.mod_lt _ (by decide)), Nat.shiftLeft_eq]

theorem regs_drive (dev blockno : Nat) : (regs dev blockno).drive = dev % 2 := by
  unfold Regs.drive
  rw [regs_head, Nat.and_one_is_mod, Nat.shiftRight_eq_div_pow]
  omega

theorem regs_lba {blockno : Nat} (dev : Nat) (h : blockno < 2 ^ 28) : (regs dev blockno).lba = blockno := by
  unfold Regs.lba
  rw [regs_head, and_nibble]
  unfold regs sector_per_block
  dsimp only
  rw [Nat.mul_one, Nat.shiftRight_eq_div_pow, Nat.shiftRight_eq_div_pow, and_byte, and_byte, and_byte]
  have h0 : blockno % 2 ^ 8 < 2 ^ 8 := by omega
  have h1 : blockno % 2 ^ 8 + blockno / 2 ^ 8 % 2 ^ 8 * 2 ^ 8 < 2 ^ 16 := by omega
  have h2 : blockno % 2 ^ 8 + blockno / 2 ^ 8 % 2 ^ 8 * 2 ^ 8 + blockno / 2 ^ 16 % 2 ^ 8 * 2 ^ 16 < 2 ^ 24 := by omega
  rw [or_shiftLeft _ h0, or_shiftLeft _ h1, or_shiftLeft _ h2]
  omega

-- The buffer after the interrupt is the one after the transfer.
theorem finish_transfer (fault : Option β) (x : Buf ι β) (disk : Nat → Nat → β)
    : x.finish fault.isSome (fault.getD (disk (x.dev % 2) x.blockno)) = (transfer fault x disk).1 := by
  unfold Buf.finish transfer
  cases hdirty : x.dirty <;> cases fault <;> simp

theorem finish_of_dirty {x : Buf ι β} (h : x.dirty = true) (fault : Option β) (v : β) (disk : Nat → Nat → β)
    : x.finish fault.isSome v = (transfer fault x disk).1 := by
  simp [Buf.finish, transfer, h]

theorem Inv.setCtl {s s' : State ι β} {l : List Slot} (h : Inv s l) (hs : s' = { s with
      ctl := s'.ctl
      sector := s'.sector
      disk := s'.disk })
    (hserves : Serves s.buf s'.ctl l)
    : Inv s' l := by
  rw [hs]
  exact ⟨h.leads, h.nodup, hserves, h.owned, h.queued, h.missing⟩

section

variable {s s' : State ι β} {l : List Slot}

theorem disk_cases (h : Inv s l) {fault : Option β} (hs : s.disk_step fault = some s')
    : ∃ b t, l = b :: t ∧ (s.buf b).blockno < FSSIZE ∧ s.ctl = (s.buf b).command ∧
        s' = { s with
          ctl := .done fault.isSome
          sector := s'.sector
          disk := (transfer fault (s.buf b) s.disk).2 } ∧
        (s.buf b).finish fault.isSome s'.sector = (transfer fault (s.buf b) s.disk).1 ∧ Inv s' l := by
  cases l with
  | nil =>
    have hidle : s.ctl = .idle := h.serves
    simp [State.disk_step, hidle] at hs
  | cons b t =>
    obtain ⟨hlt, hctl⟩ := h.serves
    rcases hctl with hctl | ⟨err, hctl⟩
    . have hlba : (regs (s.buf b).dev (s.buf b).blockno).lba = (s.buf b).blockno := by
        apply regs_lba
        unfold FSSIZE at hlt
        omega
      have key : s' = { s with
            ctl := .done fault.isSome
            sector := s'.sector
            disk := (transfer fault (s.buf b) s.disk).2 } ∧
          (s.buf b).finish fault.isSome s'.sector = (transfer fault (s.buf b) s.disk).1 := by
        unfold State.disk_step at hs
        rw [hctl, Buf.command] at hs
        cases hdirty : (s.buf b).dirty with
        | true =>
          rw [hdirty, if_pos rfl] at hs
          simp only [regs_drive, hlba, Option.some.injEq] at hs
          subst hs
          exact ⟨by simp [transfer, hdirty], finish_of_dirty hdirty _ _ _⟩
        | false =>
          rw [hdirty, if_neg (by decide)] at hs
          simp only [regs_drive, hlba, Option.some.injEq] at hs
          subst hs
          refine ⟨?_, finish_transfer fault (s.buf b) s.disk⟩
          cases fault <;> simp [transfer, hdirty]
      refine ⟨b, t, rfl, hlt, hctl, key.1, key.2, ?_⟩
      apply h.setCtl (by rw [key.1])
      rw [key.1]
      exact ⟨hlt, .inr ⟨_, rfl⟩⟩
    . simp [State.disk_step, hctl] at hs

theorem pc_wakeup_eq (s : State ι β) (b : Slot) (p : ι)
    : (s.wakeup b).pc p = if s.pc p = .asleep b then .awake b else s.pc p := rfl

theorem State.idestart_eq (h : s.ctl = .idle) (b : Slot)
    : s.idestart b =
        if (s.buf b).blockno < FSSIZE then some ({ s with ctl := (s.buf b).command }, [])
        else some (s.panic "incorrect blockno") := by
  unfold State.idestart
  dsimp only
  rw [h]
  split
  . next hge => rw [if_neg (Nat.not_lt.mpr hge)]
  . next hge => rw [if_pos (Nat.not_le.mp hge), Buf.command]

-- The head of the queue is done.
theorem Inv.pop {b : Slot} (h : Inv s (b :: l)) (err : Bool) {c : Ctl β} (hc : Serves s.buf c l)
    : Inv { s with
        ctl := c
        idequeue := s.qnext b
        buf := Function.update s.buf b ((s.buf b).finish err s.sector)
        pc := (s.wakeup b).pc } l := by
  obtain ⟨hb, hnodup⟩ := List.nodup_cons.mp h.nodup
  have hbuf : ∀ b' ∈ l, Function.update s.buf b ((s.buf b).finish err s.sector) b' = s.buf b' := by
    intro b' hb'
    apply Function.update_of_ne
    rintro rfl
    exact hb hb'
  constructor
  . exact h.leads.2
  . exact hnodup
  . apply hc.congr hbuf
  . intro p b' hp
    rw [State.pc_wakeup] at hp
    have := h.owned p b' hp
    change (Function.update s.buf b _ b').lock = _
    rw [Function.update_apply]
    split
    . next heq => rw [lock_finish, ← heq, this]
    . exact this
  . intro b' hb'
    obtain ⟨hsync, p, hp⟩ := h.queued b' (List.mem_cons_of_mem b hb')
    refine ⟨?_, p, by rw [State.pc_wakeup, hp]⟩
    change (Function.update s.buf b _ b').synced = _
    rw [hbuf b' hb', hsync]
  . intro p b' hp hnot
    rw [State.pc_wakeup] at hp
    change (Function.update s.buf b _ b').synced = _ ∧ (s.wakeup b).pc p = _
    rw [pc_wakeup_eq]
    by_cases heq : b' = b
    . subst heq
      rw [Function.update_self]
      refine ⟨synced_finish .., ?_⟩
      split
      . rfl
      . next hne =>
        cases hpc : s.pc p with
        | out => simp [hpc, Pc.buf] at hp
        | asleep b => simp_all [Pc.buf]
        | awake b => simp_all [Pc.buf]
    . obtain ⟨hsync, hawake⟩ := h.missing p b' hp (by simp [heq, hnot])
      rw [Function.update_of_ne heq, hawake]
      exact ⟨hsync, by simp⟩

theorem ideintr_cases (h : Inv s l) {o : List (Output ι β)} (hs : s.ideintr = some (s', o))
    : (l = [] ∧ s.ctl = .idle ∧ s' = s ∧ o = []) ∨
      ∃ b t err, l = b :: t ∧ s.ctl = .done err ∧ s'.disk = s.disk ∧
        ((s'.halted = true ∧ o = [.panic "incorrect blockno"] ∧
            ∃ b' t', t = b' :: t' ∧ ¬(s.buf b').blockno < FSSIZE) ∨
          (s'.halted = s.halted ∧ o = [] ∧ Inv s' t ∧ s'.buf = Function.update s.buf b ((s.buf b).finish err s.sector) ∧
            s'.pc = (s.wakeup b).pc ∧ ∀ err', s'.ctl ≠ .done err')) := by
  cases l with
  | nil =>
    have hidle : s.ctl = .idle := h.serves
    have hnone : s.idequeue = none := h.leads
    unfold State.ideintr at hs
    rw [hidle] at hs
    simp only [hnone, Option.some.injEq, Prod.mk.injEq] at hs
    obtain ⟨rfl, rfl⟩ := hs
    exact .inl ⟨rfl, hidle, by rw [← hidle, ← hnone], rfl⟩
  | cons b t =>
    obtain ⟨hlt, hctl⟩ := h.serves
    rcases hctl with hctl | ⟨err, hctl⟩
    . simp [State.ideintr, hctl, Buf.command] at hs
    . refine .inr ⟨b, t, err, rfl, hctl, ?_⟩
      have hsome : s.idequeue = some b := h.leads.1
      have hnext := h.leads.2
      unfold State.ideintr at hs
      rw [hctl] at hs
      simp only [hsome] at hs
      cases t with
      | nil =>
        have hnone : s.qnext b = none := hnext
        simp only [State.setBuf, State.wakeup, hnone, Option.some.injEq, Prod.mk.injEq] at hs
        obtain ⟨rfl, rfl⟩ := hs
        have hpop := h.pop err (c := .idle) rfl
        rw [hnone] at hpop
        exact ⟨rfl, .inr ⟨rfl, rfl, hpop, rfl, rfl, by simp⟩⟩
      | cons b' t =>
        have hhead : s.qnext b = some b' := hnext.1
        have hne : b' ≠ b := by
          rintro rfl
          exact (List.nodup_cons.mp h.nodup).1 List.mem_cons_self
        simp only [State.setBuf, State.wakeup, hhead, State.idestart, Function.update_of_ne hne] at hs
        split at hs
        . next hge =>
          simp only [State.panic, Option.some.injEq, Prod.mk.injEq] at hs
          obtain ⟨rfl, rfl⟩ := hs
          exact ⟨rfl, .inl ⟨rfl, rfl, b', t, rfl, by omega⟩⟩
        . next hge =>
          simp only [Option.some.injEq, Prod.mk.injEq] at hs
          obtain ⟨rfl, rfl⟩ := hs
          have hpop := h.pop err (c := (s.buf b').command) ⟨by omega, .inl rfl⟩
          rw [hhead] at hpop
          exact ⟨rfl, .inr ⟨rfl, rfl, hpop, rfl, rfl, by simp⟩⟩

variable [DecidableEq ι]

-- A process that has been woken leaves if its buffer is done, and sleeps on otherwise.
theorem wait_cases (h : Inv s l) {p : ι} {b : Slot} (hp : s.pc p = .awake b)
    : (b ∉ l ∧ s.wait p b = (s.setPc p .out, [.ret p b]) ∧ Inv (s.setPc p .out) l) ∨
      (b ∈ l ∧ s.wait p b = (s.setPc p (.asleep b), []) ∧ Inv (s.setPc p (.asleep b)) l) := by
  have hbuf : (s.pc p).buf = some b := by rw [hp]; rfl
  unfold State.wait
  by_cases hb : b ∈ l
  . rw [if_neg (by simp [(h.queued b hb).1])]
    refine .inr ⟨hb, rfl, h.setPc hbuf.symm ?_⟩
    intro b' heq hnot
    cases heq
    exact absurd hb hnot
  . rw [if_pos (h.missing p b hbuf hb).1]
    exact .inl ⟨hb, rfl, h.leave hbuf hb⟩

variable {havedisk1 : Bool}

theorem iderw_cases (h : Inv s l) (hhalted : s.halted = false) {p : ι} {b : Slot} {o : List (Output ι β)}
    (hp : s.pc p = .out) (hs : s.iderw havedisk1 p b = some (s', o))
    : (∃ msg, objection havedisk1 p (s.buf b) = some msg ∧ s'.halted = true ∧ s'.disk = s.disk ∧ o = [.panic msg]) ∨
      (objection havedisk1 p (s.buf b) = none ∧ s'.disk = s.disk ∧ (∀ q, (s.pc q).buf ≠ some b) ∧
        ((l = [] ∧ ¬(s.buf b).blockno < FSSIZE ∧ s'.halted = true ∧ o = [.panic "incorrect blockno"]) ∨
          (s'.halted = false ∧ o = [] ∧ Inv s' (l ++ [b]) ∧ s'.buf = s.buf ∧ s'.sector = s.sector ∧
            s'.ctl = (if l = [] then (s.buf b).command else s.ctl) ∧
            s'.pc = Function.update s.pc p (.asleep b)))) := by
  unfold State.iderw at hs
  unfold objection
  dsimp only at hs
  by_cases hlock : (s.buf b).lock = some p
  . rw [if_neg (by simp [hlock])] at hs ⊢
    cases hsync : (s.buf b).synced with
    | true =>
      rw [if_pos hsync] at hs
      cases hs
      exact .inl ⟨_, rfl, rfl, rfl, rfl⟩
    | false =>
      rw [if_neg (by simp [hsync])] at hs
      rw [if_neg (by simp)]
      split at hs
      . next hdev =>
        rw [if_pos hdev]
        cases hs
        exact .inl ⟨_, rfl, rfl, rfl, rfl⟩
      . next hdev =>
        rw [if_neg hdev]
        have hfree := h.free_of_lock hlock hp
        obtain ⟨next, x, hinsert, hleads⟩ := h.insert_eq (h.not_mem hfree)
        rw [hinsert, hhalted] at hs
        dsimp only at hs
        have hjoin := fun hhead => h.join hp hlock hsync hhead hleads
        rw [hhalted] at hjoin
        refine .inr ⟨rfl, ?_⟩
        cases l with
        | nil =>
          have hidle : s.ctl = .idle := h.serves
          rw [if_pos hleads.1] at hs
          have hstart := State.idestart_eq (s := { s with qnext := next, idequeue := x, halted := false }) hidle b
          rw [hstart] at hs
          by_cases hlt : (s.buf b).blockno < FSSIZE
          . simp only [if_pos hlt, Bool.false_eq_true, if_false, State.wait, hsync, Option.some.injEq, Prod.mk.injEq] at hs
            obtain ⟨rfl, rfl⟩ := hs
            exact ⟨rfl, hfree, .inr ⟨rfl, rfl, hjoin fun _ => hlt, rfl, rfl, rfl, rfl⟩⟩
          . rw [if_neg hlt] at hs
            cases hs
            exact ⟨rfl, hfree, .inl ⟨rfl, hlt, rfl, rfl⟩⟩
        | cons a t =>
          have hne : x ≠ some b := by
            rw [hleads.1]
            rintro heq
            cases heq
            exact h.not_mem hfree List.mem_cons_self
          rw [if_neg hne] at hs
          simp only [Bool.false_eq_true, if_false, State.wait, hsync, Option.some.injEq, Prod.mk.injEq] at hs
          obtain ⟨rfl, rfl⟩ := hs
          exact ⟨rfl, hfree, .inr ⟨rfl, rfl, hjoin (fun hnil => by cases hnil), rfl, rfl, rfl, rfl⟩⟩
  . rw [if_pos hlock] at hs ⊢
    cases hs
    exact .inl ⟨_, rfl, rfl, rfl, rfl⟩

end

end Xv6.Ide
