import Xv6.Lib.Monitor
import Xv6.Log.Lemmas

/-!
Who sleeps in `begin_op`. `log.lock` is the lock of the monitor and `ptable.lock` the second one, so that `sleep` and
`wakeup` on `&log` are the steps of the monitor. The log itself and the bodies of the functions are those of the machine.

The places of a process in the code:
- `idle`: outside of every operation
- `beginOp`: in the loop of `begin_op`
- `inOp op`: between `begin_op` and `end_op`
- `logWrite op b v`: in `log_write`, behind the tests, which come before `acquire`
- `endOp op`: in `end_op`, in front of the first critical section
- `commit`: in `commit`, without the lock
- `clear`: in `end_op`, in front of the second critical section
- `release`: behind a `wakeup`
- `halted`: stopped in `panic`
-/

namespace Xv6.Log.Waiters

variable {ι β : Type}

inductive Loc (β : Type) where
  | idle
  | beginOp
  | inOp (op : Nat)
  | logWrite (op b : Nat) (v : β)
  | endOp (op : Nat)
  | commit
  | clear
  | release
  | halted

inductive Act (β : Type) where
  | begin_op
  | log_write (b : Nat) (v : β)
  | end_op
  | commit

def act (_ : ι) (_ : Bool) (l : Loc β) (s : Log.State β) : Log.State β × Loc β × Monitor.Next :=
  match l with
  | .beginOp =>
    match s.begin_op with
    | some s' => (s', .inOp s.next, .leave)
    | none => (s, .beginOp, .wait)
  | .logWrite op b v => (s.noted b v, .inOp op, .leave)
  | .endOp op =>
    match s.end_op op with
    | (s', .panic _) => (s', .halted, .more)
    | (s', .none) => if s'.committing then (s', .commit, .leave) else (s', .release, .notify)
  | .clear => ({ s with committing := false, pc := .ready }, .release, .notify)
  | .release => (s, .idle, .leave)
  | .halted => (s, .halted, .more)
  | l => (s, l, .leave)

def outside (size : Nat) (_ : ι) (a : Act β) (l : Loc β) (s : Log.State β) : Option (Log.State β × Loc β × Bool) :=
  match a, l with
  | .begin_op, .idle => some (s, .beginOp, true)
  | .log_write b v, .inOp op =>
    if s.lh.length ≥ LOGSIZE ∨ s.lh.length ≥ size - 1 ∨ s.outstanding < 1 then some (s, .halted, false)
    else some (s, .logWrite op b v, true)
  | .end_op, .inOp op => some (s, .endOp op, true)
  | .commit, .commit =>
    if s.pc = .leave then some (s, .clear, true)
    else s.advance.map fun s => (s, .commit, false)
  | _, _ => none

def program (size : Nat) : Monitor.Program ι (Log.State β) (Loc β) (Act β) where
  act := act
  outside := outside size

abbrev State (ι β : Type) := Monitor.State ι (Log.State β) (Loc β)

-- Behind `initlog`.
def State.init (log home : Nat → β) : State ι β :=
  Monitor.State.init (Log.State.init log home) fun _ => .idle

/-- The two conditions under which `begin_op` sleeps. -/
def Full (s : Log.State β) : Prop :=
  s.committing = true ∨ s.lh.length + (s.outstanding + 1) * MAXOPBLOCKS > LOGSIZE

-- The operation that a process is in.
def Loc.op : Loc β → Option Nat
  | .inOp op => some op
  | .logWrite op _ _ => some op
  | .endOp op => some op
  | _ => none

def Loc.commits : Loc β → Bool
  | .commit => true
  | .clear => true
  | _ => false

-- The place in `commit` behind `log.lh.n = 0`.
def cleared : Pc → Bool
  | .clearHead => true
  | .leave => true
  | _ => false

structure Inv (s : Log.State β) (loc : ι → Loc β) : Prop where
  up : s.pc.up = true
  outstanding : s.outstanding = s.active.length
  nodup : s.active.Nodup
  fresh : ∀ op ∈ s.active, op < s.next
  op : ∀ p op, (loc p).op = some op → op ∈ s.active
  unique : ∀ p q op, (loc p).op = some op → (loc q).op = some op → p = q
  commits : ∀ p, (loc p).commits = true → s.committing = true
  single : ∀ p q, (loc p).commits = true → (loc q).commits = true → p = q
  quiet : s.committing = true → s.active = []
  cleared : cleared s.pc = true → s.committing = true → s.lh = []
  empty : s.committing = false → s.active = [] → s.lh = []
  clear : ∀ p, loc p = .clear → s.pc = .leave

variable [DecidableEq ι] {s s' : Log.State β} {loc : ι → Loc β} {p : ι} {l : Loc β} {op : Nat}

/-- A step of `p` that neither begins an operation nor a commit. -/
theorem Inv.change (h : Inv s loc) (hup : s'.pc.up = true) (hactive : s'.active = s.active) (hout : s'.outstanding = s.outstanding)
    (hnext : s'.next = s.next) (hcommitting : s'.committing = s.committing)
    (hlh : s.lh = [] → s'.lh = [] ∨ s.active ≠ []) (hcleared : Waiters.cleared s'.pc = true → s.committing = true → s'.lh = [])
    (hop : l.op = none ∨ l.op = (loc p).op) (hcommits : l.commits = true → (loc p).commits = true)
    (hpc : ∀ q, q ≠ p → loc q = .clear → s'.pc = .leave) (hclear : l = .clear → s'.pc = .leave)
    : Inv s' (Function.update loc p l) where
  up := hup
  outstanding := by rw [hactive, hout, h.outstanding]
  nodup := by
    rw [hactive]
    exact h.nodup
  fresh op hop := by
    rw [hactive] at hop
    rw [hnext]
    exact h.fresh op hop
  op q op hq := by
    rw [hactive]
    by_cases hqp : q = p
    . rw [hqp, Function.update_self] at hq
      rcases hop with hop | hop
      . rw [hop] at hq
        cases hq
      . rw [hop] at hq
        exact h.op p op hq
    . rw [Function.update_of_ne hqp] at hq
      exact h.op q op hq
  unique q r op hq hr := by
    have hold : ∀ q, (Function.update loc p l q).op = some op → (loc q).op = some op := by
      intro q hq
      by_cases hqp : q = p
      . rw [hqp, Function.update_self] at hq
        rcases hop with hop | hop
        . rw [hop] at hq
          cases hq
        . rwa [hqp, ← hop]
      . rwa [Function.update_of_ne hqp] at hq
    exact h.unique q r op (hold q hq) (hold r hr)
  commits q hq := by
    rw [hcommitting]
    by_cases hqp : q = p
    . rw [hqp, Function.update_self] at hq
      exact h.commits p (hcommits hq)
    . rw [Function.update_of_ne hqp] at hq
      exact h.commits q hq
  single q r hq hr := by
    have hold : ∀ q, (Function.update loc p l q).commits = true → (loc q).commits = true := by
      intro q hq
      by_cases hqp : q = p
      . rw [hqp, Function.update_self] at hq
        rw [hqp]
        exact hcommits hq
      . rwa [Function.update_of_ne hqp] at hq
    exact h.single q r (hold q hq) (hold r hr)
  quiet hc := by
    rw [hactive]
    exact h.quiet (hcommitting ▸ hc)
  cleared hpc hc := hcleared hpc (hcommitting ▸ hc)
  empty hc ha := by
    rw [hactive] at ha
    rcases hlh (h.empty (hcommitting ▸ hc) ha) with hlh | hne
    . exact hlh
    . exact absurd ha hne
  clear q hq := by
    by_cases hqp : q = p
    . rw [hqp, Function.update_self] at hq
      exact hclear hq
    . rw [Function.update_of_ne hqp] at hq
      exact hpc q hqp hq

theorem Inv.goto (h : Inv s loc) (hop : l.op = none ∨ l.op = (loc p).op)
    (hcommits : l.commits = true → (loc p).commits = true) (hclear : l = .clear → s.pc = .leave)
    : Inv s (Function.update loc p l) :=
  h.change h.up rfl rfl rfl rfl .inl (fun hpc hc => h.cleared hpc hc) hop hcommits (fun q _ => h.clear q) hclear

theorem advance_spec (hs : s.advance = some s') (hup : s.pc.up = true) (hpc : s.pc ≠ .leave)
    : s'.pc.up = true ∧ s'.active = s.active ∧ s'.outstanding = s.outstanding ∧ s'.next = s.next ∧
      s'.committing = s.committing ∧ (s'.lh = s.lh ∨ s'.lh = []) ∧
      (cleared s'.pc = true → s'.lh = [] ∨ (cleared s.pc = true ∧ s'.lh = s.lh)) := by
  have hstep : State.Step 0 s .advance .none s' := State.advance_cases hs
  cases hstep with
  | leave hp => exact absurd hp hpc
  | installEnd i hp => exact ⟨rfl, rfl, rfl, rfl, rfl, .inr rfl, fun _ => .inl rfl⟩
  | clearHead hp => exact ⟨rfl, rfl, rfl, rfl, rfl, .inl rfl, fun _ => .inr ⟨by rw [hp]; rfl, rfl⟩⟩
  | writeLog i b hp hb => exact ⟨rfl, rfl, rfl, rfl, rfl, .inl rfl, nofun⟩
  | writeLogEnd i hp hb => exact ⟨rfl, rfl, rfl, rfl, rfl, .inl rfl, nofun⟩
  | writeHead hp => exact ⟨rfl, rfl, rfl, rfl, rfl, .inl rfl, nofun⟩
  | install i b hp hb => exact ⟨rfl, rfl, rfl, rfl, rfl, .inl rfl, nofun⟩
  | readHead hp | recover i b hp hb | recoverEnd i hp hb | clearLog hp =>
    rw [hp] at hup
    cases hup

theorem begin_op_spec (hs : s.begin_op = some s')
    : s.committing = false ∧ s' = { s with
        outstanding := s.outstanding + 1, active := s.next :: s.active, next := s.next + 1 } := by
  unfold State.begin_op at hs
  split at hs
  . cases hs
  . next hcommitting =>
    split at hs
    . cases hs
    . cases hs
      exact ⟨by simpa using hcommitting, rfl⟩

theorem begin_op_none (hs : s.begin_op = none) : Full s := by
  unfold State.begin_op at hs
  split at hs
  . next hcommitting => exact .inl hcommitting
  . split at hs
    . next hfull => exact .inr hfull
    . cases hs

theorem Inv.begin_op (h : Inv s loc) (hcommitting : s.committing = false)
    : Inv { s with outstanding := s.outstanding + 1, active := s.next :: s.active, next := s.next + 1 }
        (Function.update loc p (.inOp s.next)) where
  up := h.up
  outstanding := by rw [List.length_cons, h.outstanding]
  nodup := by
    rw [List.nodup_cons]
    exact ⟨fun hmem => Nat.lt_irrefl _ (h.fresh _ hmem), h.nodup⟩
  fresh op hop := by
    rcases List.mem_cons.mp hop with rfl | hop
    . exact Nat.lt_succ_self _
    . exact Nat.lt_succ_of_lt (h.fresh op hop)
  op q op hq := by
    by_cases hqp : q = p
    . rw [hqp, Function.update_self] at hq
      cases hq
      exact List.mem_cons_self
    . rw [Function.update_of_ne hqp] at hq
      exact List.mem_cons_of_mem _ (h.op q op hq)
  unique q r op hq hr := by
    have hnew : ∀ q, q ≠ p → (loc q).op ≠ some s.next := fun q _ hq => Nat.lt_irrefl _ (h.fresh _ (h.op q _ hq))
    by_cases hqp : q = p
    . by_cases hrp : r = p
      . rw [hqp, hrp]
      . rw [hqp, Function.update_self] at hq
        cases hq
        rw [Function.update_of_ne hrp] at hr
        exact absurd hr (hnew r hrp)
    . by_cases hrp : r = p
      . rw [hrp, Function.update_self] at hr
        cases hr
        rw [Function.update_of_ne hqp] at hq
        exact absurd hq (hnew q hqp)
      . rw [Function.update_of_ne hqp] at hq
        rw [Function.update_of_ne hrp] at hr
        exact h.unique q r op hq hr
  commits q hq := by
    by_cases hqp : q = p
    . rw [hqp, Function.update_self] at hq
      cases hq
    . rw [Function.update_of_ne hqp] at hq
      exact h.commits q hq
  single q r hq hr := by
    by_cases hqp : q = p
    . rw [hqp, Function.update_self] at hq
      cases hq
    . rw [Function.update_of_ne hqp] at hq
      have := h.commits q hq
      rw [hcommitting] at this
      cases this
  quiet hc := by
    rw [hcommitting] at hc
    cases hc
  cleared _ hc := by
    rw [hcommitting] at hc
    cases hc
  empty _ ha := by cases ha
  clear q hq := by
    by_cases hqp : q = p
    . rw [hqp, Function.update_self] at hq
      cases hq
    . rw [Function.update_of_ne hqp] at hq
      exact h.clear q hq

omit [DecidableEq ι] in
theorem Inv.not_committing (h : Inv s loc) (hop : op ∈ s.active) : s.committing = false := by
  cases hc : s.committing with
  | false => rfl
  | true =>
    rw [h.quiet hc] at hop
    cases hop

omit [DecidableEq ι] in
theorem Inv.commits_false (h : Inv s loc) (hc : s.committing = false) (q : ι) : (loc q).commits = false := by
  by_contra hq
  have := h.commits q (by simpa using hq)
  rw [hc] at this
  cases this

/-- The first critical section of `end_op`, with and without a commit. -/
theorem Inv.end_op {committing : Bool} {pc : Pc} (h : Inv s loc) (hp : (loc p).op = some op) (hl : l.op = none)
    (hup : pc.up = true) (hclear : l ≠ .clear) (hcommits : l.commits = true → committing = true)
    (hlast : committing = true → s.outstanding - 1 = 0) (hmore : committing = false → s.outstanding - 1 ≠ 0)
    (hpc : Waiters.cleared pc = true → committing = true → s.lh = [])
    : Inv { s.ended op with committing := committing, pc := pc } (Function.update loc p l) := by
  have hmem := h.op p op hp
  have hc := h.not_committing hmem
  have hlen : (s.active.erase op).length = s.outstanding - 1 := by rw [List.length_erase_of_mem hmem, h.outstanding]
  have hother : ∀ q, q ≠ p → (loc q).commits = false := fun q _ => h.commits_false hc q
  constructor
  . exact hup
  . exact hlen.symm
  . exact h.nodup.erase op
  . intro op' hop'
    exact h.fresh op' (List.mem_of_mem_erase hop')
  . intro q op' hq
    by_cases hqp : q = p
    . rw [hqp, Function.update_self, hl] at hq
      cases hq
    . rw [Function.update_of_ne hqp] at hq
      apply (List.mem_erase_of_ne _).mpr (h.op q op' hq)
      rintro rfl
      exact hqp (h.unique q p op' hq hp)
  . intro q r op' hq hr
    by_cases hqp : q = p
    . rw [hqp, Function.update_self, hl] at hq
      cases hq
    . by_cases hrp : r = p
      . rw [hrp, Function.update_self, hl] at hr
        cases hr
      . rw [Function.update_of_ne hqp] at hq
        rw [Function.update_of_ne hrp] at hr
        exact h.unique q r op' hq hr
  . intro q hq
    by_cases hqp : q = p
    . rw [hqp, Function.update_self] at hq
      exact hcommits hq
    . rw [Function.update_of_ne hqp, hother q hqp] at hq
      cases hq
  . intro q r hq hr
    have honly : ∀ q, (Function.update loc p l q).commits = true → q = p := by
      intro q hq
      by_contra hqp
      rw [Function.update_of_ne hqp, hother q hqp] at hq
      cases hq
    rw [honly q hq, honly r hr]
  . intro hc'
    exact List.eq_nil_of_length_eq_zero (hlen.trans (hlast hc'))
  . exact hpc
  . intro hc' hnil
    have hnil : s.active.erase op = [] := hnil
    rw [hnil] at hlen
    exact absurd hlen.symm (hmore hc')
  . intro q hq
    by_cases hqp : q = p
    . rw [hqp, Function.update_self] at hq
      exact absurd hq hclear
    . rw [Function.update_of_ne hqp] at hq
      have := hother q hqp
      rw [hq] at this
      cases this

theorem Inv.finish (h : Inv s loc) (hp : loc p = .clear)
    : Inv { s with committing := false, pc := .ready } (Function.update loc p .release) := by
  have hcommits : (loc p).commits = true := by
    rw [hp]
    rfl
  have hc := h.commits p hcommits
  have hactive := h.quiet hc
  have hlh : s.lh = [] := by
    apply h.cleared _ hc
    rw [h.clear p hp]
    rfl
  have hnone : ∀ q, (Function.update loc p .release q).commits = false := by
    intro q
    by_cases hqp : q = p
    . rw [hqp, Function.update_self]
      rfl
    . rw [Function.update_of_ne hqp]
      by_contra hq
      exact hqp (h.single q p (by simpa using hq) hcommits)
  constructor
  . rfl
  . exact h.outstanding
  . exact h.nodup
  . exact h.fresh
  . intro q op hq
    by_cases hqp : q = p
    . rw [hqp, Function.update_self] at hq
      cases hq
    . rw [Function.update_of_ne hqp] at hq
      exact h.op q op hq
  . intro q r op hq hr
    by_cases hqp : q = p
    . rw [hqp, Function.update_self] at hq
      cases hq
    . by_cases hrp : r = p
      . rw [hrp, Function.update_self] at hr
        cases hr
      . rw [Function.update_of_ne hqp] at hq
        rw [Function.update_of_ne hrp] at hr
        exact h.unique q r op hq hr
  . intro q hq
    rw [hnone q] at hq
    cases hq
  . intro q r hq
    rw [hnone q] at hq
    cases hq
  . nofun
  . nofun
  . intro _ _
    exact hlh
  . intro q hq
    have := hnone q
    rw [hq] at this
    cases this

theorem end_op_act (h : Inv s loc) (hp : loc p = .endOp op) {n : Monitor.Next}
    (hact : act p false (.endOp op) s = (s', l, n))
    : Inv s' (Function.update loc p l) ∧ (n = .wait → Full s') ∧ (n ≠ .notify → Full s → Full s') := by
  have hop : (loc p).op = some op := by
    rw [hp]
    rfl
  have hc := h.not_committing (h.op p op hop)
  unfold act at hact
  dsimp only [State.end_op] at hact
  rw [hc] at hact
  rw [if_neg Bool.false_ne_true] at hact
  by_cases hlast : s.outstanding - 1 = 0
  . rw [if_pos hlast] at hact
    dsimp only at hact
    rw [if_pos rfl] at hact
    cases hact
    refine ⟨h.end_op hop rfl ?_ nofun (fun _ => rfl) (fun _ => hlast) nofun ?_, nofun, fun _ _ => .inl rfl⟩
    . split <;> rfl
    . intro hcl _
      split at hcl
      . next hlh => exact hlh
      . cases hcl
  . rw [if_neg hlast] at hact
    dsimp only at hact
    rw [if_neg Bool.false_ne_true] at hact
    cases hact
    refine ⟨h.end_op hop rfl h.up nofun nofun nofun (fun _ => hlast) ?_, nofun, fun hn => absurd rfl hn⟩
    intro _ hc'
    cases hc'

theorem program_sound {size : Nat}
    : Monitor.Sound (program size) (Inv : Log.State β → (ι → Loc β) → Prop) Full where
  act {s s' loc p k l n} h hact := by
    change act p k (loc p) s = (s', l, n) at hact
    cases hp : loc p with
    | beginOp =>
      rw [hp] at hact
      dsimp only [act] at hact
      split at hact
      . next s1 hs1 =>
        cases hact
        obtain ⟨hc, rfl⟩ := begin_op_spec hs1
        refine ⟨h.begin_op hc, nofun, fun _ hfull => ?_⟩
        rcases hfull with hfull | hfull
        . exact .inl hfull
        . refine .inr (Nat.lt_of_lt_of_le hfull ?_)
          apply Nat.add_le_add_left
          apply Nat.mul_le_mul_right
          dsimp only
          omega
      . next hnone =>
        cases hact
        refine ⟨h.goto (.inl rfl) nofun nofun, fun _ => begin_op_none hnone, fun _ => id⟩
    | logWrite op b v =>
      rw [hp] at hact
      cases hact
      have hop : op ∈ s.active := h.op p op (by rw [hp]; rfl)
      have hc := h.not_committing hop
      refine ⟨?_, nofun, fun _ hfull => ?_⟩
      . have hup : (s.noted b v).pc.up = true := h.up
        apply h.change hup rfl rfl rfl rfl
        . intro _
          right
          intro hnil
          rw [hnil] at hop
          cases hop
        . intro _ hc'
          rw [hc] at hc'
          cases hc'
        . right
          rw [hp]
          rfl
        . nofun
        . intro q _ hq
          have := h.commits q (by rw [hq]; rfl)
          rw [hc] at this
          cases this
        . nofun
      . rcases hfull with hfull | hfull
        . exact .inl hfull
        . refine .inr (Nat.lt_of_lt_of_le hfull ?_)
          apply Nat.add_le_add_right
          dsimp only [State.noted]
          split
          . exact Nat.le_refl _
          . rw [List.length_append]
            exact Nat.le_add_right _ _
    | endOp op =>
      rw [hp] at hact
      exact end_op_act h hp hact
    | clear =>
      rw [hp] at hact
      cases hact
      exact ⟨h.finish hp, nofun, fun hn => absurd rfl hn⟩
    | release | halted | idle | inOp op | commit =>
      rw [hp] at hact
      cases hact
      refine ⟨h.goto (by simp [hp, Loc.op]) (by simp [hp, Loc.commits]) nofun, nofun, fun _ => id⟩
  outside {s s' loc p a l enters} h hout := by
    change outside size p a (loc p) s = some (s', l, enters) at hout
    unfold outside at hout
    split at hout
    . cases hout
      exact ⟨h.goto (.inl rfl) nofun nofun, id⟩
    . next hp =>
      split at hout
      . cases hout
        exact ⟨h.goto (.inl rfl) nofun nofun, id⟩
      . cases hout
        exact ⟨h.goto (.inr (by rw [hp]; rfl)) nofun nofun, id⟩
    . next hp =>
      cases hout
      exact ⟨h.goto (.inr (by rw [hp]; rfl)) nofun nofun, id⟩
    . next hp =>
      have hcommits : (loc p).commits = true := by
        rw [hp]
        rfl
      have hc := h.commits p hcommits
      split at hout
      . next hpc =>
        cases hout
        exact ⟨h.goto (.inl rfl) (fun _ => hcommits) (fun _ => hpc), id⟩
      . next hpc =>
        obtain ⟨s1, hs1, heq⟩ := Option.map_eq_some_iff.mp hout
        cases heq
        obtain ⟨hup, hactive, hcount, hnext, hcommitting, hlh, hcl⟩ := advance_spec hs1 h.up hpc
        refine ⟨?_, fun _ => .inl (hcommitting.trans hc)⟩
        apply h.change hup hactive hcount hnext hcommitting
        . intro hnil
          rcases hlh with hlh | hlh
          . exact .inl (hlh.trans hnil)
          . exact .inl hlh
        . intro hpc' _
          rcases hcl hpc' with hlh | ⟨hcl, hlh⟩
          . exact hlh
          . exact hlh.trans (h.cleared hcl hc)
        . exact .inl rfl
        . exact fun _ => hcommits
        . intro q hqp hq
          exact absurd (h.single q p (by rw [hq]; rfl) hcommits) hqp
        . nofun
    . cases hout

/--
Whenever `log.lock` is free, whoever sleeps in `begin_op` has a reason to, and nobody does when no operation is
outstanding and no commit is running.
-/
theorem log_waiters (size : Nat) (log home : Nat → β) (es : List (Monitor.Event ι (Act β)))
    : Machine.Always (program size).step
        (fun s => s.lock = none →
          (∀ p, s.place p = .asleep →
            s.data.committing ∨ s.data.lh.length + (s.data.outstanding + 1) * MAXOPBLOCKS > LOGSIZE) ∧
          (s.data.outstanding = 0 → s.data.committing = false → ∀ p, s.place p ≠ .asleep))
        (State.init log home) es := by
  apply Monitor.always_of_sound program_sound
  . intro s hs hfree
    refine ⟨fun p hp => hs.asleep hfree hp, ?_⟩
    intro hout hc p hp
    have hactive : s.data.active = [] := by
      apply List.eq_nil_of_length_eq_zero
      rw [← hs.data.outstanding, hout]
    rcases hs.asleep hfree hp with hfull | hfull
    . rw [hc] at hfull
      cases hfull
    . rw [hs.data.empty hc hactive, hout] at hfull
      revert hfull
      decide
  . constructor <;> simp [Log.State.init, Loc.op, Loc.commits, Pc.up, cleared]

end Xv6.Log.Waiters
