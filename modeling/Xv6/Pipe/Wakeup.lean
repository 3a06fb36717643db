import Xv6.Pipe.Lemmas

/-!
Sleeping on the two channels of a pipe. A process that changes the pipe while somebody sleeps owes a `wakeup`
before it gives the lock away. `pipewrite` does not pay when it finds the pipe full and returns -1 after it
has stored some bytes.
-/

namespace Xv6.Pipe

-- There is a reason to sleep on the channel.
def waits (p : Pipe) : Chan → Prop
  | .nread => p.empty = true ∧ p.writeopen = true
  | .nwrite => p.full = true ∧ p.readopen = true

-- On the way to `sleep`, still holding `p->lock`.
def Pc.setsOut (chan : Chan) : Pc → Prop
  | .notify c _ => c.chan = some chan
  | .sleepAcquire c _ => c.chan = some chan
  | .sleepRelease c _ => c.chan = some chan
  | _ => False

-- In `sleep`, without `p->lock`.
def Pc.sleepsOn (chan : Chan) : Pc → Prop
  | .sleepSwitch c _ => c.chan = some chan
  | .asleep c _ => c.chan = some chan
  | _ => False

instance (chan : Chan) : (pc : Pc) → Decidable (pc.sleepsOn chan)
  | .sleepSwitch c _ => inferInstanceAs (Decidable (c.chan = some chan))
  | .asleep c _ => inferInstanceAs (Decidable (c.chan = some chan))
  | .idle | .acquire _ _ | .loop _ _ | .copy _ _ _ | .notify _ _ | .finish _ _ _ | .sleepAcquire _ _
  | .sleepRelease _ _ => .isFalse id

-- Before it releases `p->lock`, the code calls `wakeup` for the channel.
def Pc.owes (chan : Chan) : Pc → Prop
  | .loop (.write _) _ => chan = .nread
  | .notify _ _ => chan = .nread
  | .copy _ _ _ => chan = .nwrite
  | .finish c _ _ => chan = c.wakes
  | _ => False

namespace State

variable {ι : Type} {s s' : State ι} {e : Event ι} {o : Output} {p : ι}

structure Awake (s : State ι) : Prop where
  locks : s.Locks
  setsOut : ∀ p chan, (s.pc p).setsOut chan → waits s.pipe chan
  sleepsOn : ∀ p chan, (s.pc p).sleepsOn chan →
    waits s.pipe chan ∨ ∃ q, s.lock = some q ∧ (s.pc q).owes chan

/--
No lost wakeup: while `p->lock` is free, whoever is `SLEEPING` on one of the channels has a reason to.
-/
def NoneLost (s : State ι) : Prop :=
  s.lock = none → ∀ p c i chan, s.pc p = .asleep c i → c.chan = some chan → waits s.pipe chan

theorem Awake.noneLost (h : s.Awake) : s.NoneLost := by
  intro hfree p c i chan hp hc
  have hsleep : (s.pc p).sleepsOn chan := by
    rw [hp]
    exact hc
  rcases h.sleepsOn p chan hsleep with hwaits | ⟨q, hq, -⟩
  . exact hwaits
  . simp [hfree] at hq

-- `pipewrite` finds the pipe full and gives up.
def givesUp (s : State ι) : Event ι → Bool
  | .step p =>
    match s.pc p with
    | .loop (.write addr) i => i < addr.length ∧ s.pipe.full ∧ (¬ s.pipe.readopen ∨ s.killed p)
    | _ => false
  | _ => false

-- It leaves nobody behind in `sleep(&p->nread, ..)`.
def Pays (s : State ι) (e : Event ι) : Prop :=
  s.givesUp e = true → ∀ q, ¬ (s.pc q).sleepsOn .nread

instance [Fintype ι] (s : State ι) (e : Event ι) : Decidable (s.Pays e) :=
  inferInstanceAs (Decidable (_ → ∀ _, _))

theorem Awake.waits_of_holder (h : s.Awake) {q : ι} {chan : Chan} (hp : (s.pc p).holds = true)
    (howes : ¬ (s.pc p).owes chan) (hq : (s.pc q).sleepsOn chan)
    : waits s.pipe chan := by
  rcases h.sleepsOn q chan hq with hwaits | ⟨r, hr, hrowes⟩
  . exact hwaits
  . rw [(h.locks.lock p).mpr hp, Option.some.injEq] at hr
    subst hr
    exact absurd hrowes howes

theorem holds_of_setsOut {pc : Pc} {chan : Chan} (h : pc.setsOut chan) : pc.holds = true := by
  cases pc <;> first | rfl | exact h.elim

/--
A step of the process `p`, which holds the lock. If it owes nothing for a channel, it must not take the reason
away from those who sleep there, and what it owes it goes on owing until nobody is left.
-/
theorem Awake.turn {a b : Pc} (h : s.Awake) (hlocks : s'.Locks) (ha : s.pc p = a) (hb : s'.pc p = b)
    (hholds : a.holds = true)
    (hothers : ∀ q chan, q ≠ p → ((s'.pc q).setsOut chan → (s.pc q).setsOut chan) ∧
      ((s'.pc q).sleepsOn chan → (s.pc q).sleepsOn chan))
    (hout : ∀ chan, b.setsOut chan ∨ b.sleepsOn chan → waits s'.pipe chan)
    (hchan : ∀ chan, (¬ a.owes chan ∧ (waits s.pipe chan → waits s'.pipe chan)) ∨
      (b.holds = true ∧ b.owes chan) ∨ ∀ q, q ≠ p → ¬ (s'.pc q).sleepsOn chan)
    : s'.Awake where
  locks := hlocks
  setsOut q chan hq := by
    by_cases hqp : q = p
    . subst hqp
      exact hout chan (.inl (hb ▸ hq))
    . have := holds_of_setsOut ((hothers q chan hqp).1 hq)
      exact absurd (h.locks.eq_of_holds this (ha ▸ hholds)) hqp
  sleepsOn q chan hq := by
    by_cases hqp : q = p
    . subst hqp
      exact .inl (hout chan (.inr (hb ▸ hq)))
    . rcases hchan chan with ⟨howes, hwaits⟩ | ⟨hb', howes⟩ | hnone
      . left
        apply hwaits
        subst ha
        exact h.waits_of_holder hholds howes ((hothers q chan hqp).2 hq)
      . right
        refine ⟨p, (hlocks.lock p).mpr (hb ▸ hb'), hb ▸ howes⟩
      . exact absurd hq (hnone q hqp)

theorem Awake.aside {a b : Pc} (h : s.Awake) (hlocks : s'.Locks) (ha : s.pc p = a) (hb : s'.pc p = b)
    (hholds : a.holds = false) (hothers : ∀ q, q ≠ p → s'.pc q = s.pc q) (hpipe : s'.pipe = s.pipe)
    (hlock : ∀ q, s.lock = some q → s'.lock = some q)
    (hout : ∀ chan, ¬ b.setsOut chan) (hsleep : ∀ chan, b.sleepsOn chan → a.sleepsOn chan)
    : s'.Awake where
  locks := hlocks
  setsOut q chan hq := by
    by_cases hqp : q = p
    . subst hqp
      exact absurd (hb ▸ hq) (hout chan)
    . rw [hothers q hqp] at hq
      rw [hpipe]
      exact h.setsOut q chan hq
  sleepsOn q chan hq := by
    have hold : (s.pc q).sleepsOn chan := by
      by_cases hqp : q = p
      . subst hqp
        rw [ha]
        exact hsleep chan (hb ▸ hq)
      . rwa [hothers q hqp] at hq
    rw [hpipe]
    rcases h.sleepsOn q chan hold with hwaits | ⟨r, hr, howes⟩
    . exact .inl hwaits
    . refine .inr ⟨r, hlock r hr, ?_⟩
      have hrp : r ≠ p := by
        rintro rfl
        have := (h.locks.lock r).mp hr
        rw [ha, hholds] at this
        simp at this
      rwa [hothers r hrp]

theorem sleepsOn_wakeup1 {pc : Pc} {chan chan' : Chan} (h : (pc.wakeup1 chan').sleepsOn chan) : pc.sleepsOn chan := by
  unfold Pc.wakeup1 at h
  split at h
  . split at h
    . exact h.elim
    . exact h
  . exact h

theorem setsOut_wakeup1 {pc : Pc} {chan chan' : Chan} (h : (pc.wakeup1 chan').setsOut chan) : pc.setsOut chan := by
  unfold Pc.wakeup1 at h
  split at h
  . split at h <;> exact h.elim
  . exact h

-- After `wakeup` nobody sleeps on the channel, and nobody is on the way to it with `ptable.lock`.
theorem not_sleepsOn_wakeup1 {pc : Pc} {chan : Chan} (h : pc.holdsTable = false) : ¬ (pc.wakeup1 chan).sleepsOn chan := by
  intro hsleep
  unfold Pc.wakeup1 at hsleep
  split at hsleep
  . split at hsleep
    . exact hsleep
    . next hne => exact hne hsleep
  . next hne =>
    cases pc with
    | sleepSwitch c i => cases h
    | asleep c i => exact hne c i rfl
    | _ => exact hsleep

variable [DecidableEq ι]

theorem setPc_turn {pc : Pc} {t : State ι} (ht : t.pc = (s.setPc p pc).pc) (q : ι) (chan : Chan) (hq : q ≠ p)
    : ((t.pc q).setsOut chan → (s.pc q).setsOut chan) ∧ ((t.pc q).sleepsOn chan → (s.pc q).sleepsOn chan) := by
  rw [ht, setPc_pc, if_neg hq]
  exact ⟨id, id⟩

variable [Fintype ι]

theorem step_awake (h : s.Awake) (hstep : step s e = some (s', o)) (hpays : s.Pays e) : s'.Awake := by
  have hlocks := step_locks h.locks hstep
  cases step_cases hstep with
  | call p c hp =>
    exact h.aside hlocks hp (if_pos rfl) rfl (fun _ hq => if_neg hq) rfl (fun _ => id) (fun _ => id) (fun _ => False.elim)
  | kill p =>
    by_cases hsleep : ∃ c i, s.pc p = .asleep c i
    . obtain ⟨c, i, hp⟩ := hsleep
      have hp' : (s.kill p).pc p = .acquire c i := by
        rw [kill_pc, if_pos rfl, hp]
        rfl
      refine h.aside hlocks hp hp' rfl ?_ rfl (fun _ => id) (fun _ => id) (fun _ => False.elim)
      intro q hq
      rw [kill_pc, if_neg hq]
    . have hpc : (s.kill p).pc = s.pc := by
        funext q
        rw [kill_pc]
        split
        . next hq =>
          subst hq
          unfold Pc.kill
          split
          . next c i hc => exact absurd ⟨c, i, hc⟩ hsleep
          . rfl
        . rfl
      refine ⟨hlocks, ?_, ?_⟩
      . rw [hpc]
        exact h.setsOut
      . rw [hpc]
        exact h.sleepsOn
  | acquire p c i hp hlock =>
    refine h.aside hlocks hp (if_pos rfl) rfl (fun _ hq => if_neg hq) rfl ?_ (fun _ => id) (fun _ => False.elim)
    simp [hlock]
  | writeEnd p addr i hp hi =>
    refine h.turn hlocks hp (if_pos rfl) rfl (setPc_turn rfl) (by simp [Pc.setsOut, Pc.sleepsOn]) ?_
    intro chan
    cases chan with
    | nread => exact .inr (.inl ⟨rfl, rfl⟩)
    | nwrite => exact .inl ⟨nofun, id⟩
  | giveUp p addr i b hp hi hfull hfail =>
    refine h.turn hlocks hp (if_pos rfl) rfl (setPc_turn rfl) (by simp [Pc.setsOut, Pc.sleepsOn]) ?_
    intro chan
    cases chan with
    | nread =>
      have hi : i < addr.length := (List.getElem?_eq_some_iff.mp hi).1
      refine .inr (.inr ?_)
      intro q hq
      rw [leave_pc, if_neg hq]
      apply hpays
      simpa [givesUp, hp, hi, hfull] using hfail
    | nwrite => exact .inl ⟨nofun, id⟩
  | block p addr i b hp hi hfull hopen =>
    refine h.turn hlocks hp (if_pos rfl) rfl (setPc_turn rfl) ?_ ?_
    . rintro chan (hout | hout)
      . rw [← Option.some.inj hout]
        exact ⟨hfull, hopen⟩
      . exact hout.elim
    . intro chan
      cases chan with
      | nread => exact .inr (.inl ⟨rfl, rfl⟩)
      | nwrite => exact .inl ⟨nofun, id⟩
  | put p addr i b hp hi hfull =>
    refine h.turn hlocks hp (if_pos rfl) rfl (setPc_turn rfl) (by simp [Pc.setsOut, Pc.sleepsOn]) ?_
    intro chan
    cases chan with
    | nread => exact .inr (.inl ⟨rfl, rfl⟩)
    | nwrite =>
      refine .inl ⟨nofun, ?_⟩
      intro hwaits
      simp [waits, hfull] at hwaits
  | readGiveUp p n i hp hempty hopen =>
    refine h.turn hlocks hp (if_pos rfl) rfl (setPc_turn rfl) (by simp [Pc.setsOut, Pc.sleepsOn]) ?_
    exact fun chan => .inl ⟨id, id⟩
  | readBlock p n i hp hempty hopen =>
    refine h.turn hlocks hp (if_pos rfl) rfl (setPc_turn rfl) ?_ fun chan => .inl ⟨id, id⟩
    rintro chan (hout | hout)
    . rw [← Option.some.inj hout]
      exact ⟨hempty, hopen⟩
    . exact hout.elim
  | readCopy p n i hp =>
    refine h.turn hlocks hp (if_pos rfl) rfl (setPc_turn rfl) (by simp [Pc.setsOut, Pc.sleepsOn]) ?_
    exact fun chan => .inl ⟨id, id⟩
  | take p n i addr hp hi hempty =>
    refine h.turn hlocks hp (if_pos rfl) rfl (setPc_turn rfl) (by simp [Pc.setsOut, Pc.sleepsOn]) ?_
    intro chan
    cases chan with
    | nwrite => exact .inr (.inl ⟨rfl, rfl⟩)
    | nread =>
      refine .inl ⟨nofun, ?_⟩
      intro hwaits
      simp [waits, hempty] at hwaits
  | copyEnd p n i addr hp =>
    refine h.turn hlocks hp (if_pos rfl) rfl (setPc_turn rfl) (by simp [Pc.setsOut, Pc.sleepsOn]) ?_
    intro chan
    cases chan with
    | nwrite => exact .inr (.inl ⟨rfl, rfl⟩)
    | nread => exact .inl ⟨nofun, id⟩
  | close p w i hp =>
    refine h.turn hlocks hp (if_pos rfl) rfl (setPc_turn rfl) (by simp [Pc.setsOut, Pc.sleepsOn]) ?_
    intro chan
    cases w with
    | true =>
      cases chan with
      | nread => exact .inr (.inl ⟨rfl, rfl⟩)
      | nwrite => exact .inl ⟨id, id⟩
    | false =>
      cases chan with
      | nread => exact .inl ⟨id, id⟩
      | nwrite => exact .inr (.inl ⟨rfl, rfl⟩)
  | notify p c i hp htable =>
    refine h.turn hlocks hp (if_pos rfl) rfl ?_ ?_ ?_
    . intro q chan hq
      rw [setPc_pc, if_neg hq]
      exact ⟨setsOut_wakeup1, sleepsOn_wakeup1⟩
    . rintro chan (hout | hout)
      . exact h.setsOut p chan (by rw [hp]; exact hout)
      . exact hout.elim
    . intro chan
      cases chan with
      | nread =>
        refine .inr (.inr ?_)
        intro q hq
        rw [setPc_pc, if_neg hq]
        exact not_sleepsOn_wakeup1 (h.locks.not_holdsTable htable q)
      | nwrite => exact .inl ⟨nofun, id⟩
  | finish p c r addr hp htable =>
    refine h.turn hlocks hp (if_pos rfl) rfl ?_ (by simp [Pc.setsOut, Pc.sleepsOn]) ?_
    . intro q chan hq
      rw [leave_pc, if_neg hq]
      exact ⟨setsOut_wakeup1, sleepsOn_wakeup1⟩
    . intro chan
      by_cases hwakes : chan = c.wakes
      . refine .inr (.inr ?_)
        intro q hq
        rw [leave_pc, if_neg hq, hwakes]
        exact not_sleepsOn_wakeup1 (h.locks.not_holdsTable htable q)
      . exact .inl ⟨hwakes, id⟩
  | sleepAcquire p c i hp =>
    refine h.turn hlocks hp (if_pos rfl) rfl (setPc_turn rfl) ?_ fun chan => .inl ⟨id, id⟩
    rintro chan (hout | hout)
    . exact h.setsOut p chan (by rw [hp]; exact hout)
    . exact hout.elim
  | sleepRelease p c i hp =>
    refine h.turn hlocks hp (if_pos rfl) rfl (setPc_turn rfl) ?_ fun chan => .inl ⟨id, id⟩
    rintro chan (hout | hout)
    . exact hout.elim
    . exact h.setsOut p chan (by rw [hp]; exact hout)
  | sleepSwitch p c i hp =>
    exact h.aside hlocks hp (if_pos rfl) rfl (fun _ hq => if_neg hq) rfl (fun _ => id) (fun _ => id) (fun _ => id)

/--
In every run in which no `pipewrite` gives up on a full pipe while a reader is in `sleep`, no wakeup is ever lost.
-/
theorem no_wakeup_lost (data : Fin PIPESIZE → UInt8) {es : List (Event ι)}
    (hpays : Machine.Along step (fun s e _ _ => s.Pays e) (init data) es)
    : Machine.Always step NoneLost (init data) es := by
  have hinit : (init (ι := ι) data).Awake := ⟨init_locks data, fun _ _ => False.elim, fun _ _ => False.elim⟩
  refine ⟨hinit.noneLost, ?_⟩
  apply Machine.along_of_invariant (I := Awake) _ hinit hpays
  intro s e o s' h hstep hpay
  have h' := step_awake h hstep hpay
  exact ⟨h'.noneLost, h'⟩

theorem run_stores {addr : List UInt8} {k i : Nat} (hpc : s.pc p = .loop (.write addr) i) (hk : i + k ≤ addr.length)
    (hroom : ∀ j < k, s.pipe.nwrite + BitVec.ofNat 32 j ≠ s.pipe.nread + BitVec.ofNat 32 PIPESIZE)
    : ∃ t, Machine.run step s (List.replicate k (.step p)) = some t ∧ t.lock = s.lock ∧ t.killed = s.killed ∧
        (∀ q, q ≠ p → t.pc q = s.pc q) ∧ t.pc p = .loop (.write addr) (i + k) ∧ t.pipe.nread = s.pipe.nread ∧
        t.pipe.nwrite = s.pipe.nwrite + BitVec.ofNat 32 k ∧
        ∀ es, Machine.Along step (fun s e _ _ => s.Pays e) t es →
          Machine.Along step (fun s e _ _ => s.Pays e) s (List.replicate k (.step p) ++ es) := by
  induction k generalizing s i with
  | zero => exact ⟨s, rfl, rfl, rfl, fun _ _ => rfl, hpc, rfl, (BitVec.add_zero _).symm, fun _ => id⟩
  | succ k ih =>
    have hi : i < addr.length := by omega
    have hfull : s.pipe.full = false := by
      have := hroom 0 (Nat.succ_pos k)
      rw [BitVec.add_zero] at this
      exact decide_eq_false this
    have hstep : step s (.step p) =
        some ((s.setPipe (s.pipe.put addr[i])).setPc p (.loop (.write addr) (i + 1)), .none) := by
      simp only [step, next, hpc, pipewrite, List.getElem?_eq_getElem hi, hfull, Bool.false_eq_true, if_false]
    have hself : ((s.setPipe (s.pipe.put addr[i])).setPc p (.loop (.write addr) (i + 1))).pc p =
        .loop (.write addr) (i + 1) := if_pos rfl
    have hadd : ∀ j, s.pipe.nwrite + 1 + BitVec.ofNat 32 j = s.pipe.nwrite + BitVec.ofNat 32 (j + 1) := by
      intro j
      rw [BitVec.add_assoc, BitVec.add_comm 1, BitVec.ofNat_add]
      rfl
    obtain ⟨t, hrun, hlock, hkilled, hothers, hpc', hnread, hnwrite, hpays⟩ := ih hself (by omega) fun j hj => by
      have := hroom (j + 1) (by omega)
      rwa [← hadd] at this
    refine ⟨t, ?_, hlock, hkilled, ?_, ?_, hnread, hnwrite.trans (hadd k), fun es hes => ?_⟩
    . rw [List.replicate_succ, Machine.run_cons hstep]
      exact hrun
    . intro q hq
      exact (hothers q hq).trans (if_neg hq)
    . rw [hpc', Nat.add_right_comm, Nat.add_assoc]
    . rw [List.replicate_succ, List.cons_append, Machine.along_cons hstep]
      refine ⟨?_, hpays es hes⟩
      intro hgives
      simp [givesUp, hpc, hfull] at hgives

theorem room_of_init : ∀ j < 512, (0 : BitVec 32) + BitVec.ofNat 32 j ≠ 0 + BitVec.ofNat 32 PIPESIZE := by
  intro j hj heq
  have := congrArg BitVec.toNat heq
  simp only [BitVec.ofNat_eq_ofNat, BitVec.zero_add, BitVec.toNat_ofNat] at this
  unfold PIPESIZE at this
  omega

-- A killed writer fills the pipe and gives up, and nobody sleeps.
theorem no_wakeup_lost_giveUp
    : Machine.Always step NoneLost (init (ι := Fin 2) fun _ => 0)
        ([.call 1 (.write (List.replicate 513 7)), .kill 1, .step 1] ++
          (List.replicate 512 (.step 1) ++ [.step 1])) := by
  have hlength : (List.replicate 513 (7 : UInt8)).length = 513 := List.length_replicate
  generalize List.replicate 513 (7 : UInt8) = addr at *
  apply no_wakeup_lost
  have hstart : ∀ es s, Machine.run step (init (ι := Fin 2) fun _ => 0) [.call 1 (.write addr), .kill 1, .step 1] = some s →
      Machine.Along step (fun s e _ _ => s.Pays e) s es →
      Machine.Along step (fun s e _ _ => s.Pays e) (init (ι := Fin 2) fun _ => 0)
        ([.call 1 (.write addr), .kill 1, .step 1] ++ es) := by
    intro es s hs hes
    cases hs
    exact ⟨fun h => (by cases h), fun h => (by cases h), fun h => (by cases h), hes⟩
  obtain ⟨s, hs, hidle, hwriter, hnread, hnwrite⟩ : ∃ s, Machine.run step (init (ι := Fin 2) fun _ => 0)
      [.call 1 (.write addr), .kill 1, .step 1] = some s ∧ s.pc 0 = .idle ∧ s.pc 1 = .loop (.write addr) 0 ∧
      s.pipe.nread = 0 ∧ s.pipe.nwrite = 0 := ⟨_, rfl, rfl, rfl, rfl, rfl⟩
  apply hstart _ s hs
  have hroom : ∀ j < 512, s.pipe.nwrite + BitVec.ofNat 32 j ≠ s.pipe.nread + BitVec.ofNat 32 PIPESIZE := by
    rw [hnread, hnwrite]
    exact room_of_init
  obtain ⟨t, -, -, -, hothers, hpc, -, -, hpays⟩ := run_stores (k := 512) hwriter (by omega) hroom
  apply hpays
  have hawake : ∀ q, ¬ (t.pc q).sleepsOn .nread := by
    intro q
    by_cases hq : q = 1
    . rw [hq, hpc]
      exact id
    . have hq : q = 0 := by omega
      rw [hothers q (by rw [hq]; decide), hq, hidle]
      exact id
  unfold Machine.Along
  split
  . exact ⟨fun _ => hawake, trivial⟩
  . trivial

/--
The reader 0 sleeps, the writer 1 is killed after it has entered `pipewrite` with 513 bytes. It stores 512 of
them, finds the pipe full and returns without `wakeup`.
-/
theorem killed_writer_loses_wakeup
    : ¬ Machine.Always step NoneLost (init (ι := Fin 2) fun _ => 0)
        ([.call 0 (.read 1), .step 0, .step 0, .step 0, .step 0, .step 0,
          .call 1 (.write (List.replicate 513 7)), .kill 1] ++ List.replicate 514 (.step 1)) := by
  intro hall
  have hlength : (List.replicate 513 (7 : UInt8)).length = 513 := List.length_replicate
  have hstart : (Machine.run step (init (ι := Fin 2) fun _ => 0)
      ([.call 0 (.read 1), .step 0, .step 0, .step 0, .step 0, .step 0,
        .call 1 (.write (List.replicate 513 7)), .kill 1] ++ [.step 1])).map
      (fun s => (s.pc 0, s.pc 1, s.killed 1, s.pipe.nread, s.pipe.nwrite)) =
        some (.asleep (.read 1) 0, .loop (.write (List.replicate 513 7)) 0, true, 0, 0) := by
    decide +kernel
  have hevents : List.replicate 514 (Event.step (1 : Fin 2)) =
      [.step 1] ++ (List.replicate 512 (.step 1) ++ [.step 1]) := by
    rw [← List.replicate_succ', List.singleton_append, ← List.replicate_succ]
  rw [hevents, ← List.append_assoc] at hall
  generalize List.replicate 513 (7 : UInt8) = addr at *
  obtain ⟨s, hs, heq⟩ := Option.map_eq_some_iff.mp hstart
  simp only [Prod.mk.injEq] at heq
  obtain ⟨hreader, hwriter, hkill, hnread, hnwrite⟩ := heq
  have hroom : ∀ j < 512, s.pipe.nwrite + BitVec.ofNat 32 j ≠ s.pipe.nread + BitVec.ofNat 32 PIPESIZE := by
    rw [hnread, hnwrite]
    exact room_of_init
  obtain ⟨t, ht, -, hkilled, hothers, hpc, hnread', hnwrite', -⟩ := run_stores (k := 512) hwriter (by omega) hroom
  have hempty : t.pipe.empty = false := by
    rw [Pipe.empty, hnread', hnwrite', hnread, hnwrite]
    decide
  have hfull : t.pipe.full = true := by
    rw [Pipe.full, hnread', hnwrite', hnread, hnwrite]
    decide
  have hlast : step t (.step 1) = some (t.leave 1, .ret (.write addr) (-1) []) := by
    have hlt : 0 + 512 < addr.length := by omega
    simp only [step, next, hpc, pipewrite, List.getElem?_eq_getElem hlt, hfull, if_true, hkilled, hkill, or_true]
  have hrun : Machine.run step s (List.replicate 512 (.step 1) ++ [.step 1]) = some (t.leave 1) := by
    rw [Machine.run_append ht, Machine.run_cons hlast]
    rfl
  have hasleep : (t.leave 1).pc 0 = .asleep (.read 1) 0 := by
    rw [← hreader, ← hothers 0 (by decide)]
    rfl
  have hlost := Machine.always_run hall ((Machine.run_append hs).trans hrun) rfl 0 _ _ .nread hasleep rfl
  have hwaits : t.pipe.empty = true := hlost.1
  rw [hempty] at hwaits
  cases hwaits

end State

end Xv6.Pipe
