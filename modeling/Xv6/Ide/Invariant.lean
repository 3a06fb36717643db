import Xv6.Ide.Impl
import Mathlib.Data.Fintype.Card

/-!
What holds whenever `idelock` is free: the pointers of the queue lead over a list of buffers, each of which belongs to
exactly one process in `iderw`, and the controller works for the first of them.
-/

namespace Xv6.Ide

variable {ι β : Type}

-- The buffer that the process waits for.
def Pc.buf : Pc → Option Slot
  | .out => none
  | .asleep b => some b
  | .awake b => some b

-- The command that `idestart` issues for the buffer.
def Buf.command (x : Buf ι β) : Ctl β :=
  .busy (regs x.dev x.blockno) (if x.dirty then some x.data else none)

-- The controller works for the head of the queue, or it has just ended.
def Serves (buf : Slot → Buf ι β) (c : Ctl β) : List Slot → Prop
  | [] => c = .idle
  | b :: _ => (buf b).blockno < FSSIZE ∧ (c = (buf b).command ∨ ∃ err, c = .done err)

structure Inv (s : State ι β) (l : List Slot) : Prop where
  leads : Chain.Leads s.qnext s.idequeue l
  nodup : l.Nodup
  serves : Serves s.buf s.ctl l
  owned : ∀ p b, (s.pc p).buf = some b → (s.buf b).lock = some p
  queued : ∀ b ∈ l, (s.buf b).synced = false ∧ ∃ p, (s.pc p).buf = some b
  missing : ∀ p b, (s.pc p).buf = some b → b ∉ l → (s.buf b).synced = true ∧ s.pc p = .awake b

@[simp]
theorem synced_finish (x : Buf ι β) (err : Bool) (v : β) : (x.finish err v).synced = true := by
  simp [Buf.finish, Buf.synced]

@[simp]
theorem lock_finish (x : Buf ι β) (err : Bool) (v : β) : (x.finish err v).lock = x.lock := by
  unfold Buf.finish
  split <;> rfl

theorem Pc.buf_eq_none {x : Pc} : x.buf = none ↔ x = .out := by
  cases x <;> simp [Pc.buf]

theorem Serves.congr {buf buf' : Slot → Buf ι β} {c : Ctl β} {l : List Slot} (h : Serves buf c l)
    (heq : ∀ b ∈ l, buf' b = buf b)
    : Serves buf' c l := by
  cases l with
  | nil => exact h
  | cons b l =>
    obtain ⟨hlt, hc⟩ := h
    rw [← heq b List.mem_cons_self] at hlt hc
    exact ⟨hlt, hc⟩

variable {s : State ι β} {l : List Slot}

@[simp]
theorem State.pc_wakeup (s : State ι β) (b : Slot) (p : ι) : ((s.wakeup b).pc p).buf = (s.pc p).buf := by
  change (if s.pc p = .asleep b then Pc.awake b else s.pc p).buf = (s.pc p).buf
  split
  . next h => rw [h]; rfl
  . rfl

namespace Inv

theorem length_le (h : Inv s l) : l.length ≤ NBUF := by
  have := List.Nodup.length_le_card h.nodup
  rwa [Fintype.card_fin] at this

-- A buffer that nobody waits for.
theorem not_mem (h : Inv s l) {b : Slot} (hb : ∀ p, (s.pc p).buf ≠ some b) : b ∉ l := by
  intro hmem
  obtain ⟨_, p, hp⟩ := h.queued b hmem
  exact hb p hp

-- The process that holds a buffer is the only one that could wait for it.
theorem free_of_lock (h : Inv s l) {b : Slot} {p : ι} (hlock : (s.buf b).lock = some p) (hp : s.pc p = .out) (q : ι)
    : (s.pc q).buf ≠ some b := by
  intro hq
  have := h.owned q b hq
  rw [hlock, Option.some.injEq] at this
  subst this
  simp [hp, Pc.buf] at hq

theorem setBuf (h : Inv s l) {b : Slot} (hb : ∀ p, (s.pc p).buf ≠ some b) (x : Buf ι β) : Inv (s.setBuf b x) l := by
  have hmem := h.not_mem hb
  have hl : ∀ b' ∈ l, (s.setBuf b x).buf b' = s.buf b' := by
    intro b' hb'
    apply Function.update_of_ne
    rintro rfl
    exact hmem hb'
  have hp : ∀ p b', (s.pc p).buf = some b' → (s.setBuf b x).buf b' = s.buf b' := by
    intro p b' hp
    apply Function.update_of_ne
    rintro rfl
    exact hb p hp
  constructor
  . exact h.leads
  . exact h.nodup
  . apply h.serves.congr hl
  . intro p b' hb'
    rw [hp p b' hb']
    apply h.owned p b' hb'
  . intro b' hb'
    rw [hl b' hb']
    apply h.queued b' hb'
  . intro p b' hb' hnot
    rw [hp p b' hb']
    apply h.missing p b' hb' hnot

end Inv

variable [DecidableEq ι]

theorem State.buf_setPc {p : ι} {x : Pc} (hx : x.buf = (s.pc p).buf) (q : ι)
    : ((s.setPc p x).pc q).buf = (s.pc q).buf := by
  change (Function.update s.pc p x q).buf = _
  rw [Function.update_apply]
  split
  . next heq => rw [heq, hx]
  . rfl

namespace Inv

-- The place of a process changes, but not what it waits for.
theorem setPc (h : Inv s l) {p : ι} {x : Pc} (hx : x.buf = (s.pc p).buf)
    (hmissing : ∀ b, x.buf = some b → b ∉ l → x = .awake b)
    : Inv (s.setPc p x) l := by
  have hbuf := State.buf_setPc hx
  constructor
  . exact h.leads
  . exact h.nodup
  . exact h.serves
  . intro q b hq
    rw [hbuf] at hq
    apply h.owned q b hq
  . intro b hb
    obtain ⟨hsync, q, hq⟩ := h.queued b hb
    exact ⟨hsync, q, by rw [hbuf, hq]⟩
  . intro q b hq hnot
    rw [hbuf] at hq
    obtain ⟨hsync, hawake⟩ := h.missing q b hq hnot
    refine ⟨hsync, ?_⟩
    change Function.update s.pc p x q = _
    rw [Function.update_apply]
    split
    . next heq =>
      subst heq
      exact hmissing b (by rw [hx, hq]) hnot
    . exact hawake

theorem kill (h : Inv s l) {p : ι} {b : Slot} (hp : s.pc p = .asleep b) : Inv (s.setPc p (.awake b)) l := by
  apply h.setPc (by rw [hp]; rfl)
  intro b' heq _
  cases heq
  rfl

-- A process leaves whose buffer is done.
theorem leave (h : Inv s l) {p : ι} {b : Slot} (hp : (s.pc p).buf = some b) (hb : b ∉ l)
    : Inv (s.setPc p .out) l := by
  have hne : ∀ q b', ((s.setPc p .out).pc q).buf = some b' → q ≠ p ∧ (s.setPc p .out).pc q = s.pc q := by
    intro q b' hq
    have hqp : q ≠ p := by
      rintro rfl
      change (Function.update s.pc q Pc.out q).buf = _ at hq
      rw [Function.update_self] at hq
      simp [Pc.buf] at hq
    exact ⟨hqp, Function.update_of_ne hqp ..⟩
  constructor
  . exact h.leads
  . exact h.nodup
  . exact h.serves
  . intro q b' hq
    obtain ⟨_, heq⟩ := hne q b' hq
    rw [heq] at hq
    apply h.owned q b' hq
  . intro b' hb'
    obtain ⟨hsync, q, hq⟩ := h.queued b' hb'
    refine ⟨hsync, q, ?_⟩
    change (Function.update s.pc p Pc.out q).buf = _
    rw [Function.update_of_ne, hq]
    rintro rfl
    rw [hp, Option.some.injEq] at hq
    exact hb (hq ▸ hb')
  . intro q b' hq hnot
    obtain ⟨_, heq⟩ := hne q b' hq
    rw [heq] at hq ⊢
    apply h.missing q b' hq hnot

omit [DecidableEq ι] in
theorem insert_eq (h : Inv s l) {b : Slot} (hb : b ∉ l)
    : ∃ next x, s.insert b = some { s with qnext := next, idequeue := x } ∧ Chain.Leads next x (l ++ [b]) := by
  have hleads : Chain.Leads (Function.update s.qnext b none) s.idequeue l := by
    apply h.leads.congr
    intro b' hb'
    apply Function.update_of_ne
    rintro rfl
    exact hb hb'
  unfold State.insert
  cases l with
  | nil =>
    have hnone : s.idequeue = none := hleads
    refine ⟨Function.update s.qnext b none, some b, ?_, rfl, Function.update_self ..⟩
    simp [State.setQnext, hnone]
  | cons a l =>
    have hsome : s.idequeue = some a := hleads.1
    have hlast := (hsome ▸ hleads).last h.length_le
    obtain ⟨e, he⟩ : ∃ e, (a :: l).getLast? = some e := ⟨_, List.getLast?_eq_some_getLast (by simp)⟩
    rw [he] at hlast
    refine ⟨Function.update (Function.update s.qnext b none) e (some b), some a, ?_, ?_⟩
    . simp [State.setQnext, hsome, hlast]
    . rw [← hsome]
      apply hleads.append h.nodup he hb (Function.update_self ..)

-- The buffer is at the end of the queue, and its process is asleep.
theorem join (h : Inv s l) {p : ι} {b : Slot} (hp : s.pc p = .out) (hlock : (s.buf b).lock = some p)
    (hsync : (s.buf b).synced = false) (hhead : l = [] → (s.buf b).blockno < FSSIZE) {next : Slot → Option Slot}
    {x : Option Slot} (hleads : Chain.Leads next x (l ++ [b]))
    : Inv { s with
        qnext := next
        idequeue := x
        ctl := if l = [] then (s.buf b).command else s.ctl
        pc := Function.update s.pc p (.asleep b) } (l ++ [b]) := by
  have hfree := h.free_of_lock hlock hp
  have hpc : ∀ q, ((Function.update s.pc p (.asleep b)) q).buf = if q = p then some b else (s.pc q).buf := by
    intro q
    rw [Function.update_apply]
    split <;> rfl
  constructor
  . exact hleads
  . rw [List.nodup_append]
    refine ⟨h.nodup, by simp, ?_⟩
    intro a ha b' hb'
    rw [List.mem_singleton] at hb'
    subst hb'
    rintro rfl
    exact h.not_mem hfree ha
  . cases l with
    | nil => exact ⟨hhead rfl, .inl rfl⟩
    | cons a l => exact h.serves
  . intro q b' hq
    change ((Function.update s.pc p (.asleep b)) q).buf = _ at hq
    rw [hpc] at hq
    split at hq
    . next heq =>
      cases hq
      rw [heq, hlock]
    . apply h.owned q b' hq
  . intro b' hb'
    rw [List.mem_append, List.mem_singleton] at hb'
    rcases hb' with hb' | rfl
    . obtain ⟨hsync', q, hq⟩ := h.queued b' hb'
      refine ⟨hsync', q, ?_⟩
      change ((Function.update s.pc p (.asleep b)) q).buf = _
      rw [hpc, if_neg, hq]
      rintro rfl
      simp [hp, Pc.buf] at hq
    . refine ⟨hsync, p, ?_⟩
      change ((Function.update s.pc p (.asleep b')) p).buf = _
      rw [hpc, if_pos rfl]
  . intro q b' hq hnot
    rw [List.mem_append, List.mem_singleton, not_or] at hnot
    change ((Function.update s.pc p (.asleep b)) q).buf = _ at hq
    rw [hpc] at hq
    split at hq
    . next heq =>
      cases hq
      exact absurd rfl hnot.2
    . next hne =>
      change _ ∧ Function.update s.pc p (.asleep b) q = _
      rw [Function.update_of_ne hne]
      apply h.missing q b' hq hnot.1

end Inv

omit [DecidableEq ι] in
theorem inv_init (zero : β) (buf : Slot → Buf ι β) (disk : Nat → Nat → β) : Inv (State.init zero buf disk) [] where
  leads := rfl
  nodup := List.nodup_nil
  serves := rfl
  owned p b h := by cases h
  queued b h := by cases h
  missing p b h := by cases h

end Xv6.Ide
