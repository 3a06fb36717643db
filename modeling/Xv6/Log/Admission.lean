import Mathlib.Data.Finset.Card
import Xv6.Log.Lemmas

/-!
How much fits into the log. `begin_op` reserves `MAXOPBLOCKS` of `LOGSIZE` blocks for each operation, but
`log_write` stops at `log.size - 1` blocks, and it does so even if the block is in the log already.
-/

namespace Xv6.Log

-- `mkfs` makes `sb.nlog` this large.
def nlog : Nat := LOGSIZE

namespace State

variable {β : Type} {s s' : State β} {e : Event β} {o : Output}

-- The history: the blocks of all calls of `log_write` since the last commit.
def logged (s : State β) (e : Event β) (_ : State β) (h : List Nat) : List Nat :=
  match e with
  | .log_write _ b _ => h ++ [b]
  | .advance =>
    match s.pc with
    | .install i => if i < s.lh.length then h else []
    | _ => h
  | .crash => []
  | _ => h

-- The header in memory lists the logged blocks, each once.
structure Lists (x : State β × List Nat) : Prop where
  nodup : x.1.pc.up = true → x.1.lh.Nodup
  mem : x.1.pc.up = true → ∀ b, b ∈ x.1.lh ↔ b ∈ x.2
  recovered : x.1.pc = .clearLog → x.1.lh = []
  fresh : x.1.pc.up = false → x.1.pc ≠ .halted → x.2 = []

theorem Lists.card {x : State β × List Nat} (hx : Lists x) (hup : x.1.pc.up = true)
    : x.1.lh.length = x.2.toFinset.card := by
  rw [← List.toFinset_card_of_nodup (hx.nodup hup)]
  congr 1
  ext b
  rw [List.mem_toFinset, List.mem_toFinset, hx.mem hup b]

theorem Lists.move {h : List Nat} (hx : Lists (s, h)) (hlh : s'.lh = s.lh) (hup : s'.pc.up = s.pc.up)
    (hclear : s'.pc = .clearLog → s'.lh = []) (hhalt : s.pc = .halted → s'.pc = .halted)
    : Lists (s', h) := by
  constructor
  . intro h1
    rw [hlh]
    exact hx.nodup (hup ▸ h1)
  . intro h1 b
    rw [hlh]
    exact hx.mem (hup ▸ h1) b
  . exact hclear
  . intro h1 h2
    exact hx.fresh (hup ▸ h1) (fun h3 => h2 (hhalt h3))

theorem Lists.halted {h : List Nat} (hpc : s.pc = .halted) : Lists (s, h) := by
  constructor <;> simp [hpc, Pc.up]

theorem Lists.empty (hlh : s.lh = []) : Lists (s, []) := by
  constructor <;> simp [hlh]

theorem Lists.noted {h : List Nat} (hx : Lists (s, h)) (hup : s.pc.up = true) (b : Nat) (v : β)
    : Lists (s.noted b v, h ++ [b]) := by
  have hnodup := hx.nodup hup
  have hmem := hx.mem hup
  have hup' : (s.noted b v).pc.up = true := hup
  constructor
  . intro _
    dsimp only [State.noted]
    split
    . exact hnodup
    . next hb => exact List.nodup_append.mpr ⟨hnodup, by simp, by simpa using fun a ha (heq : a = b) => hb (heq ▸ ha)⟩
  . intro _ c
    dsimp only [State.noted] at hmem ⊢
    rw [List.mem_append, List.mem_singleton, ← hmem c]
    split
    . next hb =>
      constructor
      . exact .inl
      . rintro (hc | rfl)
        . exact hc
        . exact hb
    . rw [List.mem_append, List.mem_singleton]
  . intro hpc
    have hpc : s.pc = .clearLog := hpc
    simp [hpc, Pc.up] at hup
  . intro hdown
    rw [hup'] at hdown
    cases hdown

theorem step_lists {size : Nat} {x x' : State β × List Nat} (hx : Lists x)
    (hstep : Machine.watch (step size) logged x e = some (x', o))
    : Lists x' := by
  obtain ⟨hs, hh⟩ := Machine.watch_eq_some hstep
  obtain ⟨s, h⟩ := x
  obtain ⟨s', h'⟩ := x'
  dsimp only at hs hh
  subst hh
  cases step_cases hs with
  | begin hup => exact hx.move rfl rfl (fun hpc => hx.recovered hpc) id
  | tooBig => exact .halted rfl
  | outside => exact .halted rfl
  | write op b v hup => exact hx.noted hup b v
  | endPanic => exact .halted rfl
  | endCommit op hup =>
    refine hx.move (by rfl) ?_ ?_ ?_
    . rw [hup]
      dsimp only
      split <;> rfl
    . dsimp only
      split <;> simp
    . intro hpc
      simp [hpc, Pc.up] at hup
  | endOp op hup => exact hx.move rfl rfl (fun hpc => hx.recovered hpc) id
  | writeLog i b hpc =>
    simp only [logged, hpc]
    exact hx.move rfl (by simp [hpc, Pc.up]) (by simp) (by simp [hpc])
  | writeLogEnd i hpc =>
    simp only [logged, hpc]
    exact hx.move rfl (by simp [hpc, Pc.up]) (by simp) (by simp [hpc])
  | writeHead hpc =>
    simp only [logged, hpc]
    exact hx.move rfl (by simp [hpc, Pc.up]) (by simp) (by simp [hpc])
  | install i b hpc hb =>
    have hi : i < s.lh.length := (List.getElem?_eq_some_iff.mp hb).1
    simp only [logged, hpc, hi, if_true]
    exact hx.move rfl (by simp [State.install, hpc, Pc.up]) (by simp [State.install]) (by simp [hpc])
  | installEnd i hpc hb =>
    have hi : ¬ i < s.lh.length := Nat.not_lt.mpr (List.getElem?_eq_none_iff.mp hb)
    simp only [logged, hpc, hi, if_false]
    exact .empty rfl
  | clearHead hpc =>
    simp only [logged, hpc]
    exact hx.move rfl (by simp [hpc, Pc.up]) (by simp) (by simp [hpc])
  | leave hpc =>
    simp only [logged, hpc]
    exact hx.move rfl (by simp [hpc, Pc.up]) (by simp) (by simp [hpc])
  | readHead hpc =>
    have hh : h = [] := hx.fresh (by simp [hpc, Pc.up]) (by simp [hpc])
    constructor <;> simp [logged, hpc, Pc.up, hh]
  | recover i b hpc =>
    simp only [logged, hpc]
    exact hx.move rfl (by simp [State.install, hpc, Pc.up]) (by simp [State.install]) (by simp [hpc])
  | recoverEnd i hpc =>
    have hh : h = [] := hx.fresh (by simp [hpc, Pc.up]) (by simp [hpc])
    simp only [logged, hpc, hh]
    exact .empty rfl
  | clearLog hpc =>
    have hh : h = [] := hx.fresh (by simp [hpc, Pc.up]) (by simp [hpc])
    simp only [logged, hpc, hh]
    exact .empty (hx.recovered hpc)
  | crash => exact .empty rfl

theorem init_lists (log home : Nat → β) : Lists (init log home, []) :=
  .empty rfl

-- The blocks that have been logged so far leave room for one more below `log.size - 1`.
def Roomy (x : State β × List Nat) (e : Event β) (_ : Output) (_ : State β × List Nat) : Prop :=
  match e with
  | .log_write _ _ _ => x.2.toFinset.card < LOGSIZE - 1
  | _ => True

def NotTooBig (_ : State β × List Nat) (_ : Event β) (o : Output) (_ : State β × List Nat) : Prop :=
  o ≠ .panic "too big a transaction"

instance (x : State β × List Nat) (e : Event β) (o : Output) (x' : State β × List Nat)
    : Decidable (NotTooBig x e o x') :=
  inferInstanceAs (Decidable (o ≠ _))

theorem notTooBig_iff_roomy {x x' : State β × List Nat} (hx : Lists x)
    (hstep : Machine.watch (step nlog) logged x e = some (x', o))
    : NotTooBig x e o x' ↔ Roomy x e o x' := by
  obtain ⟨hs, -⟩ := Machine.watch_eq_some hstep
  obtain ⟨s, h⟩ := x
  obtain ⟨s', h'⟩ := x'
  dsimp only at hs
  cases step_cases hs with
  | tooBig op b v hup hop hbig =>
    rw [hx.card hup] at hbig
    simp only [nlog] at hbig
    simp only [NotTooBig, Roomy]
    constructor
    . intro h
      exact absurd rfl h
    . intro h
      omega
  | outside op b v hup hop hbig =>
    rw [hx.card hup] at hbig
    simp only [nlog] at hbig
    simp only [NotTooBig, Roomy]
    constructor
    . intro _
      omega
    . intro _
      simp
  | write op b v hup hop hbig =>
    rw [hx.card hup] at hbig
    simp only [nlog] at hbig
    simp only [NotTooBig, Roomy]
    constructor
    . intro _
      omega
    . intro _
      simp
  | _ => simp [NotTooBig, Roomy]

-- The blocks that the operation `op` logs.
def Event.block (op : Nat) : Event β → Option Nat
  | .log_write op' b _ => if op' = op then some b else none
  | _ => none

def Quota (es : List (Event β)) : Prop :=
  ∀ op, (es.filterMap (Event.block op)).toFinset.card ≤ MAXOPBLOCKS

-- Three operations, each of which logs `MAXOPBLOCKS` blocks.
def fullRun : List (Event Nat) :=
  [.begin_op, .begin_op, .begin_op] ++ (List.range LOGSIZE).map fun b => .log_write (b / MAXOPBLOCKS) b 0

theorem fullRun_quota : Quota fullRun := by
  intro op
  by_cases hop : op < 3
  . have : ∀ op < 3, (fullRun.filterMap (Event.block op)).toFinset.card ≤ MAXOPBLOCKS := by decide +kernel
    exact this op hop
  . have : fullRun.filterMap (Event.block op) = [] := by
      rw [List.filterMap_eq_nil_iff]
      intro e he
      simp only [fullRun, List.mem_append, List.mem_map, List.mem_range] at he
      rcases he with he | ⟨b, hb, rfl⟩
      . simp only [List.mem_cons, List.not_mem_nil, or_false, or_self] at he
        rw [he]
        rfl
      . have : b / MAXOPBLOCKS ≠ op := by
          unfold LOGSIZE MAXOPBLOCKS at *
          omega
        simp [Event.block, this]
    simp [this]

end State

end Xv6.Log
