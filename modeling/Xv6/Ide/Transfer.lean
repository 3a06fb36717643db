import Xv6.Ide.Steps
import Xv6.Lib.Refine

/-!
Whatever processes, controller and interrupt handler do in between, `iderw` cannot be told from a transfer in a single
step. The transfer is the moment in which the controller ends the command.
-/

namespace Xv6.Ide

open Machine (Follows)
open Spec (objection transfer)

variable {ι β : Type}

-- The queue and the buffers after the transfer that the handler does not know of yet.
def State.queue (s : State ι β) (l : List Slot) : List Slot :=
  match s.ctl with
  | .done _ => l.tail
  | _ => l

def State.finishHead (s : State ι β) (err : Bool) : List Slot → Slot → Buf ι β
  | [] => s.buf
  | b :: _ => Function.update s.buf b ((s.buf b).finish err s.sector)

def State.view (s : State ι β) (l : List Slot) : Slot → Buf ι β :=
  match s.ctl with
  | .done err => s.finishHead err l
  | _ => s.buf

-- How the commands of the disk end: `none` is success.
def Event.ending : Event ι β → List (Option β)
  | .disk fault => [fault]
  | _ => []

def Spec.Event.ending : Spec.Event ι β → List (Option β)
  | .transfer fault => [fault]
  | _ => []

structure Live (s : State ι β) (a : Spec ι β) (l : List Slot) : Prop where
  inv : Inv s l
  queue : a.queue = s.queue l
  buf : a.buf = s.view l
  call : ∀ p, a.call p = (s.pc p).buf

structure Refines (s : State ι β) (a : Spec ι β) : Prop where
  halted : a.halted = s.halted
  disk : a.disk = s.disk
  live : s.halted = false → ∃ l, Live s a l

section

variable {s : State ι β} {l : List Slot} {b : Slot}

theorem view_of_not_mem (h : b ∉ l) : s.view l b = s.buf b := by
  have hfinish : ∀ err, s.finishHead err l b = s.buf b := by
    intro err
    cases l with
    | nil => rfl
    | cons a l =>
      apply Function.update_of_ne
      rintro rfl
      exact h List.mem_cons_self
  unfold State.view
  cases s.ctl <;> simp [hfinish]

theorem view_setBuf (h : b ∉ l) (x : Buf ι β)
    : (s.setBuf b x).view l = Function.update (s.view l) b x := by
  unfold State.view
  change (match s.ctl with
    | .done err => (s.setBuf b x).finishHead err l
    | _ => Function.update s.buf b x) = _
  split
  . cases l with
    | nil => rfl
    | cons c l =>
      have hne : c ≠ b := by
        rintro rfl
        exact h List.mem_cons_self
      change Function.update (Function.update s.buf b x) c ((Function.update s.buf b x c).finish _ _) = _
      rw [Function.update_of_ne hne]
      apply Function.update_comm hne.symm
  . rfl

theorem lock_view (s : State ι β) (l : List Slot) (b : Slot) : (s.view l b).lock = (s.buf b).lock := by
  have hfinish : ∀ err, (s.finishHead err l b).lock = (s.buf b).lock := by
    intro err
    cases l with
    | nil => rfl
    | cons a l =>
      change (Function.update s.buf a _ b).lock = _
      rw [Function.update_apply]
      split
      . next heq => rw [lock_finish, heq]
      . rfl
  unfold State.view
  cases s.ctl <;> simp [hfinish]

theorem queue_snoc {s' : State ι β} (hctl : s'.ctl = if l = [] then (s.buf b).command else s.ctl)
    : s'.queue (l ++ [b]) = s.queue l ++ [b] := by
  cases l with
  | nil =>
    unfold State.queue
    rw [hctl, if_pos rfl, Buf.command]
    cases s.ctl <;> rfl
  | cons a t =>
    unfold State.queue
    rw [hctl, if_neg (by simp)]
    cases s.ctl <;> rfl

theorem view_snoc {s' : State ι β} (hctl : s'.ctl = if l = [] then (s.buf b).command else s.ctl)
    (hbuf : s'.buf = s.buf) (hsector : s'.sector = s.sector)
    : s'.view (l ++ [b]) = s.view l := by
  cases l with
  | nil =>
    unfold State.view
    rw [hctl, if_pos rfl, Buf.command, ← hbuf]
    cases s.ctl <;> simp [State.finishHead, hbuf]
  | cons a t =>
    unfold State.view
    rw [hctl, if_neg (by simp)]
    simp only [List.cons_append, State.finishHead, hbuf, hsector]

theorem queue_subset (h : b ∈ s.queue l) : b ∈ l := by
  unfold State.queue at h
  split at h
  . exact List.mem_of_mem_tail h
  . exact h

theorem queue_of_ne_done (h : ∀ err, s.ctl ≠ .done err) : s.queue l = l := by
  unfold State.queue
  split
  . next err heq => exact absurd heq (h err)
  . rfl

theorem view_of_ne_done (h : ∀ err, s.ctl ≠ .done err) : s.view l = s.buf := by
  unfold State.view
  split
  . next err heq => exact absurd heq (h err)
  . rfl

end

variable [DecidableEq ι]

theorem access_congr {out out' : ι → Prop} [DecidablePred out] [DecidablePred out'] (h : ∀ p, out p ↔ out' p)
    (x : Buf ι β) (c : Access ι β)
    : access out x c = access out' x c := by
  cases c <;> simp only [access, h]

-- Nobody in `iderw` holds a buffer that is accessed.
theorem out_of_access {out : ι → Prop} [DecidablePred out] {x : Buf ι β} {c : Access ι β}
    {r : Buf ι β × Option β} (h : access out x c = some r) {p : ι} (hlock : x.lock = some p)
    : out p := by
  cases c <;> simp only [access, hlock, reduceCtorEq, and_false, false_and, if_false, Option.some.injEq] at h <;>
    split at h <;> simp_all

variable {s s' : State ι β} {a : Spec ι β} {l : List Slot} {havedisk1 : Bool}

theorem access_follows (h : Live s a l) (hhalted : s.halted = false) (hR : Refines s a) {c : Access ι β}
    {x : Buf ι β} {v : Option β} (hs : access (fun p => s.pc p = .out) (s.buf c.slot) c = some (x, v))
    : Follows (Spec.step havedisk1) Spec.Event.ending Refines a [.access c v] [] (s.setBuf c.slot x) := by
  have hfree : ∀ p, (s.pc p).buf ≠ some c.slot := by
    intro p hp
    have hout := out_of_access hs (h.inv.owned p c.slot hp)
    rw [hout] at hp
    simp [Pc.buf] at hp
  have hmem := h.inv.not_mem hfree
  have hbuf : a.buf c.slot = s.buf c.slot := by
    rw [h.buf, view_of_not_mem hmem]
  have hcall : ∀ p, s.pc p = .out ↔ a.call p = none := by
    intro p
    rw [h.call, Pc.buf_eq_none]
  rw [access_congr hcall, ← hbuf] at hs
  have hstep : Spec.step havedisk1 a (.access c) =
      some ({ a with buf := Function.update a.buf c.slot x }, [.access c v]) := by
    simp [Spec.step, hR.halted, hhalted, hs]
  apply Follows.move hstep
  refine ⟨hR.halted, hR.disk, fun _ => ⟨l, h.inv.setBuf hfree x, h.queue, ?_, h.call⟩⟩
  rw [view_setBuf hmem, ← h.buf]

-- A panic while the next block does not exist.
theorem refuse_follows {a : Spec ι β} {b : Slot} {t : List Slot} (hqueue : a.queue = b :: t) (hhalted : a.halted = false)
    (hge : ¬(a.buf b).blockno < FSSIZE) (hs : s'.halted = true) (hdisk : a.disk = s'.disk)
    : Follows (Spec.step havedisk1) Spec.Event.ending Refines a [.panic "incorrect blockno"] [] s' := by
  have hstep : Spec.step havedisk1 a .refuse = some ({ a with halted := true }, [.panic "incorrect blockno"]) := by
    simp [Spec.step, hhalted, hqueue, hge]
  apply Follows.move hstep
  exact ⟨hs.symm, hdisk, fun hlive => by simp [hs] at hlive⟩

theorem iderw_follows (h : Live s a l) (hhalted : s.halted = false) (hR : Refines s a) {p : ι} {b : Slot}
    {o : List (Output ι β)} (hp : s.pc p = .out) (hs : s.iderw havedisk1 p b = some (s', o))
    : Follows (Spec.step havedisk1) Spec.Event.ending Refines a (.call p b :: o) [] s' := by
  have hcall : a.call p = none := by
    rw [h.call, hp]
    rfl
  have hahalted : a.halted = false := by rw [hR.halted, hhalted]
  rcases iderw_cases h.inv hhalted hp hs with ⟨msg, hobj, hs', hdisk, rfl⟩ | ⟨hobj, hdisk, hfree, hcases⟩
  . have hbuf : objection havedisk1 p (a.buf b) = some msg := by
      rw [h.buf]
      by_cases hlock : (s.buf b).lock = some p
      . rwa [view_of_not_mem (h.inv.not_mem (h.inv.free_of_lock hlock hp))]
      . unfold objection at hobj ⊢
        rw [if_pos hlock] at hobj
        rw [lock_view, if_pos hlock, hobj]
    have hstep : Spec.step havedisk1 a (.iderw p b) = some ({ a with halted := true }, [.call p b, .panic msg]) := by
      simp [Spec.step, hahalted, hcall, hbuf]
    apply Follows.move hstep
    exact ⟨hs'.symm, hR.disk.trans hdisk.symm, fun hlive => by simp [hs'] at hlive⟩
  . have hmem := h.inv.not_mem hfree
    have hbuf : a.buf b = s.buf b := by rw [h.buf, view_of_not_mem hmem]
    have hstep : Spec.step havedisk1 a (.iderw p b) =
        some ({ a with queue := a.queue ++ [b], call := Function.update a.call p (some b) }, [.call p b]) := by
      simp [Spec.step, hahalted, hcall, hbuf, hobj]
    rcases hcases with ⟨rfl, hge, hs', rfl⟩ | ⟨hs', rfl, hinv, hbufs, hsector, hctl, hpc⟩
    . have hnil : a.queue = [] := by
        rw [h.queue]
        unfold State.queue
        split <;> rfl
      apply Follows.cons hstep
      apply refuse_follows (b := b) (t := [])
      . simp [hnil]
      . exact hahalted
      . change ¬(a.buf b).blockno < FSSIZE
        rwa [hbuf]
      . exact hs'
      . exact hR.disk.trans hdisk.symm
    . apply Follows.move hstep
      refine ⟨hR.halted.trans (hhalted.trans hs'.symm), hR.disk.trans hdisk.symm, fun _ => ⟨_, hinv, ?_, ?_, ?_⟩⟩
      . rw [queue_snoc hctl, ← h.queue]
      . rw [view_snoc hctl hbufs hsector, ← h.buf]
      . intro q
        change Function.update a.call p (some b) q = _
        rw [hpc, Function.update_apply, Function.update_apply]
        split
        . rfl
        . apply h.call

theorem wait_follows (h : Live s a l) (hhalted : s.halted = false) (hR : Refines s a) {p : ι} {b : Slot}
    (hp : s.pc p = .awake b)
    : Follows (Spec.step havedisk1) Spec.Event.ending Refines a (s.wait p b).2 [] (s.wait p b).1 := by
  have hbuf : (s.pc p).buf = some b := by rw [hp]; rfl
  rcases wait_cases h.inv hp with ⟨hb, hwait, hinv⟩ | ⟨hb, hwait, hinv⟩
  . rw [hwait]
    have hqueue : b ∉ a.queue := by
      rw [h.queue]
      exact fun hmem => hb (queue_subset hmem)
    have hstep : Spec.step havedisk1 a (.ret p) =
        some ({ a with call := Function.update a.call p none }, [.ret p b]) := by
      simp [Spec.step, hR.halted, hhalted, h.call, hbuf, hqueue]
    apply Follows.move hstep
    refine ⟨hR.halted, hR.disk, fun _ => ⟨l, hinv, h.queue, h.buf, ?_⟩⟩
    intro q
    change Function.update a.call p none q = (Function.update s.pc p .out q).buf
    rw [Function.update_apply, Function.update_apply]
    split
    . rfl
    . apply h.call
  . rw [hwait]
    apply Follows.stay
    refine ⟨hR.halted, hR.disk, fun _ => ⟨l, hinv, h.queue, h.buf, ?_⟩⟩
    intro q
    rw [h.call, State.buf_setPc (x := .asleep b) hbuf.symm]

theorem disk_follows (h : Live s a l) (hhalted : s.halted = false) (hR : Refines s a) {fault : Option β}
    (hs : s.disk_step fault = some s')
    : Follows (Spec.step havedisk1) Spec.Event.ending Refines a [] [fault] s' := by
  obtain ⟨b, t, rfl, hlt, hctl, hs', hfinish, hinv⟩ := disk_cases h.inv hs
  have hbusy : ∀ err, s.ctl ≠ .done err := by
    intro err
    rw [hctl]
    simp [Buf.command]
  have hqueue : a.queue = b :: t := by rw [h.queue, queue_of_ne_done hbusy]
  have hbuf : a.buf = s.buf := by rw [h.buf, view_of_ne_done hbusy]
  have hstep : Spec.step havedisk1 a (.transfer fault) =
      some ({ a with
        buf := Function.update s.buf b (transfer fault (s.buf b) s.disk).1
        queue := t
        disk := (transfer fault (s.buf b) s.disk).2 }, []) := by
    simp [Spec.step, hR.halted, hhalted, hqueue, hbuf, hlt, hR.disk]
  apply Follows.move hstep
  rw [← hfinish]
  rw [hs'] at hinv ⊢
  exact ⟨hR.halted, rfl, fun _ => ⟨b :: t, hinv, rfl, rfl, h.call⟩⟩

theorem ideintr_follows (h : Live s a l) (hhalted : s.halted = false) (hR : Refines s a) {o : List (Output ι β)}
    (hs : s.ideintr = some (s', o))
    : Follows (Spec.step havedisk1) Spec.Event.ending Refines a o [] s' := by
  rcases ideintr_cases h.inv hs with ⟨_, _, rfl, rfl⟩ | ⟨b, t, err, rfl, hctl, hdisk, hcases⟩
  . exact .stay hR
  . have hqueue : a.queue = t := by
      rw [h.queue]
      unfold State.queue
      rw [hctl]
      rfl
    have hbuf : a.buf = Function.update s.buf b ((s.buf b).finish err s.sector) := by
      rw [h.buf]
      unfold State.view
      rw [hctl]
      rfl
    rcases hcases with ⟨hs', rfl, b', t', rfl, hge⟩ | ⟨hs', rfl, hinv, hbufs, hpc, hctl'⟩
    . have hne : b' ≠ b := by
        rintro rfl
        exact (List.nodup_cons.mp h.inv.nodup).1 List.mem_cons_self
      apply refuse_follows hqueue (hR.halted.trans hhalted) _ hs' (hR.disk.trans hdisk.symm)
      rwa [hbuf, Function.update_of_ne hne]
    . apply Follows.stay
      refine ⟨hR.halted.trans hs'.symm, hR.disk.trans hdisk.symm, fun _ => ⟨t, hinv, ?_, ?_, ?_⟩⟩
      . rw [queue_of_ne_done hctl', hqueue]
      . rw [view_of_ne_done hctl', hbufs, hbuf]
      . intro p
        rw [h.call, hpc, State.pc_wakeup]

theorem step_follows {e : Event ι β} {o : List (Output ι β)} (hR : Refines s a)
    (hs : State.step havedisk1 s e = some (s', o))
    : Follows (Spec.step havedisk1) Spec.Event.ending Refines a o e.ending s' := by
  unfold State.step at hs
  split at hs
  . simp at hs
  . next hnot =>
    have hhalted : s.halted = false := by simpa using hnot
    obtain ⟨l, h⟩ := hR.live hhalted
    cases e with
    | access c =>
      dsimp only at hs
      split at hs
      . simp at hs
      . next x v haccess =>
        cases hs
        exact access_follows h hhalted hR haccess
    | iderw p b =>
      dsimp only at hs
      split at hs
      . next hp =>
        split at hs
        . simp at hs
        . next s1 os hiderw =>
          cases hs
          exact iderw_follows h hhalted hR hp hiderw
      . simp at hs
    | run p =>
      dsimp only at hs
      split at hs
      . next b hp =>
        have : Follows (Spec.step havedisk1) Spec.Event.ending Refines a (s.wait p b).2 [] (s.wait p b).1 := wait_follows h hhalted hR hp
        rw [Option.some.injEq] at hs
        rwa [hs] at this
      . simp at hs
    | kill p =>
      dsimp only at hs
      split at hs
      . next b hp =>
        cases hs
        apply Follows.stay
        refine ⟨hR.halted, hR.disk, fun _ => ⟨l, h.inv.kill hp, h.queue, h.buf, ?_⟩⟩
        intro q
        rw [h.call, State.buf_setPc (by rw [hp]; rfl)]
      . simp at hs
    | disk fault =>
      dsimp only at hs
      split at hs
      . simp at hs
      . next s1 hdisk =>
        cases hs
        exact disk_follows h hhalted hR hdisk
    | ideintr => exact ideintr_follows h hhalted hR hs

omit [DecidableEq ι] in
theorem refines_init (zero : β) (buf : Slot → Buf ι β) (disk : Nat → Nat → β)
    : Refines (State.init zero buf disk) (Spec.init buf disk) :=
  ⟨rfl, rfl, fun _ => ⟨[], inv_init zero buf disk, rfl, rfl, fun _ => rfl⟩⟩

/--
In every run of the driver, its callers see what they could see if each call made its buffer and its block equal in a
single step, one call after the other, with the same faults of the disk in the same order.
-/
theorem iderw_refines (havedisk1 : Bool) (zero : β) (buf : Slot → Buf ι β) (disk : Nat → Nat → β)
    (es : List (Event ι β)) (s : State ι β)
    (hrun : Machine.run (State.step havedisk1) (State.init zero buf disk) es = some s)
    : ∃ es' a, Machine.run (Spec.step havedisk1) (Spec.init buf disk) es' = some a ∧
        Machine.trace (Spec.step havedisk1) (Spec.init buf disk) es' =
          Machine.trace (State.step havedisk1) (State.init zero buf disk) es ∧
        es'.flatMap Spec.Event.ending = es.flatMap Event.ending ∧ a.disk = s.disk ∧ a.halted = s.halted ∧
        (s.halted = false → ∀ p, a.call p = (s.pc p).buf) ∧
        (s.halted = false → ∀ b, (∀ p, (s.pc p).buf ≠ some b) → a.buf b = s.buf b) := by
  obtain ⟨es', a, hrun', htrace, hending, hR⟩ :=
    Machine.refines_of_simulation (fun _ _ _ _ _ hR hs => step_follows hR hs) (refines_init zero buf disk) hrun
  refine ⟨es', a, hrun', htrace, hending, hR.disk, hR.halted, ?_, ?_⟩
  . intro hlive
    obtain ⟨l, h⟩ := hR.live hlive
    exact h.call
  . intro hlive b hfree
    obtain ⟨l, h⟩ := hR.live hlive
    rw [h.buf, view_of_not_mem (h.inv.not_mem hfree)]

-- Empty buffers for the first blocks of the disk.
def exampleBufs : Slot → Buf (Fin 1) Nat := fun b =>
  { valid := false, dirty := false, dev := 1, blockno := b, lock := none, data := 0 }

theorem iderw_refines_read
    : ∃ es' a, Machine.run (Spec.step true) (Spec.init exampleBufs fun _ k => 100 + k) es' = some a ∧
        Machine.trace (Spec.step true) (Spec.init exampleBufs fun _ k => 100 + k) es' =
          [.access (.acquiresleep 0 7) none, .call 0 7, .ret 0 7, .access (.load 0 7) (some 107)] ∧
        es'.flatMap Spec.Event.ending = [none] := by
  obtain ⟨es', a, hrun, htrace, hending, _⟩ := iderw_refines true 0 exampleBufs (fun _ k => 100 + k)
    [.access (.acquiresleep 0 7), .iderw 0 7, .disk none, .ideintr, .run 0, .access (.load 0 7)] _ rfl
  exact ⟨es', a, hrun, htrace, hending⟩

end Xv6.Ide
