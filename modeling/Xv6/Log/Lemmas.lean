import Xv6.Log.Impl

/-!
What a step of the log can do.
-/

namespace Xv6.Log

namespace State

variable {β : Type}

def noted (s : State β) (b : Nat) (v : β) : State β :=
  { s with mem := update s.mem b v, lh := if b ∈ s.lh then s.lh else s.lh ++ [b] }

def ended (s : State β) (op : Nat) : State β :=
  { s with outstanding := s.outstanding - 1, active := s.active.erase op }

inductive Step (size : Nat) (s : State β) : Event β → Output → State β → Prop where
  | begin : s.pc.up = true → s.committing = false → s.lh.length + (s.outstanding + 1) * MAXOPBLOCKS ≤ LOGSIZE →
      Step size s .begin_op .none
        { s with outstanding := s.outstanding + 1, active := s.next :: s.active, next := s.next + 1 }
  | tooBig (op b : Nat) (v : β) : s.pc.up = true → op ∈ s.active →
      (s.lh.length ≥ LOGSIZE ∨ s.lh.length ≥ size - 1) →
      Step size s (.log_write op b v) (.panic "too big a transaction") { s with pc := .halted }
  | outside (op b : Nat) (v : β) : s.pc.up = true → op ∈ s.active →
      ¬ (s.lh.length ≥ LOGSIZE ∨ s.lh.length ≥ size - 1) → s.outstanding < 1 →
      Step size s (.log_write op b v) (.panic "log_write outside of trans") { s with pc := .halted }
  | write (op b : Nat) (v : β) : s.pc.up = true → op ∈ s.active →
      ¬ (s.lh.length ≥ LOGSIZE ∨ s.lh.length ≥ size - 1) → 1 ≤ s.outstanding →
      Step size s (.log_write op b v) .none (s.noted b v)
  | endPanic (op : Nat) : s.pc.up = true → op ∈ s.active → s.committing = true →
      Step size s (.end_op op) (.panic "log.committing") { s.ended op with pc := .halted }
  | endCommit (op : Nat) : s.pc.up = true → op ∈ s.active → s.committing = false → s.outstanding - 1 = 0 →
      Step size s (.end_op op) .none
        { s.ended op with committing := true, pc := if s.lh = [] then .leave else .writeLog 0 }
  | endOp (op : Nat) : s.pc.up = true → op ∈ s.active → s.committing = false → s.outstanding - 1 ≠ 0 →
      Step size s (.end_op op) .none (s.ended op)
  | writeLog (i b : Nat) : s.pc = .writeLog i → s.lh[i]? = some b →
      Step size s .advance .none
        { s with disk := { s.disk with log := update s.disk.log i (s.mem b) }, pc := .writeLog (i + 1) }
  | writeLogEnd (i : Nat) : s.pc = .writeLog i → s.lh[i]? = none →
      Step size s .advance .none { s with pc := .writeHead }
  | writeHead : s.pc = .writeHead →
      Step size s .advance .none { s with disk := { s.disk with head := s.lh }, pc := .install 0 }
  | install (i b : Nat) : s.pc = .install i → s.lh[i]? = some b →
      Step size s .advance .none (s.install i b (.install (i + 1)))
  | installEnd (i : Nat) : s.pc = .install i → s.lh[i]? = none →
      Step size s .advance .none { s with lh := [], pc := .clearHead }
  | clearHead : s.pc = .clearHead →
      Step size s .advance .none { s with disk := { s.disk with head := s.lh }, pc := .leave }
  | leave : s.pc = .leave → Step size s .advance .none { s with committing := false, pc := .ready }
  | readHead : s.pc = .down → Step size s .advance .none { s with lh := s.disk.head, pc := .recover 0 }
  | recover (i b : Nat) : s.pc = .recover i → s.lh[i]? = some b →
      Step size s .advance .none (s.install i b (.recover (i + 1)))
  | recoverEnd (i : Nat) : s.pc = .recover i → s.lh[i]? = none →
      Step size s .advance .none { s with lh := [], pc := .clearLog }
  | clearLog : s.pc = .clearLog →
      Step size s .advance .none { s with disk := { s.disk with head := s.lh }, pc := .ready }
  | crash : Step size s .crash .none s.crash

variable {s s' : State β} {e : Event β} {o : Output} {size : Nat}

theorem advance_cases (h : s.advance = some s') : Step size s .advance .none s' := by
  unfold advance at h
  split at h
  . next i hpc =>
    split at h <;> rw [← Option.some.inj h]
    . next b hb => exact .writeLog i b hpc hb
    . next hb => exact .writeLogEnd i hpc hb
  . next hpc =>
    rw [← Option.some.inj h]
    exact .writeHead hpc
  . next i hpc =>
    split at h <;> rw [← Option.some.inj h]
    . next b hb => exact .install i b hpc hb
    . next hb => exact .installEnd i hpc hb
  . next hpc =>
    rw [← Option.some.inj h]
    exact .clearHead hpc
  . next hpc =>
    rw [← Option.some.inj h]
    exact .leave hpc
  . next hpc =>
    rw [← Option.some.inj h]
    exact .readHead hpc
  . next i hpc =>
    split at h <;> rw [← Option.some.inj h]
    . next b hb => exact .recover i b hpc hb
    . next hb => exact .recoverEnd i hpc hb
  . next hpc =>
    rw [← Option.some.inj h]
    exact .clearLog hpc
  . simp at h
  . simp at h

theorem step_cases (h : step size s e = some (s', o)) : Step size s e o s' := by
  unfold step at h
  split at h
  . split at h
    . next hup =>
      rw [Option.map_eq_some_iff] at h
      obtain ⟨t, ht, heq⟩ := h
      obtain ⟨rfl, rfl⟩ := Prod.mk.inj heq
      unfold begin_op at ht
      split at ht
      . simp at ht
      . next hc =>
        split at ht
        . simp at ht
        . next hroom =>
          rw [← Option.some.inj ht]
          exact .begin hup (by simpa using hc) (by omega)
    . simp at h
  . next op b v =>
    split at h
    . next hop =>
      rw [Option.some.injEq] at h
      unfold log_write at h
      split at h
      . next hbig =>
        obtain ⟨rfl, rfl⟩ := Prod.mk.inj h
        exact .tooBig op b v hop.1 hop.2 hbig
      . next hbig =>
        split at h <;> obtain ⟨rfl, rfl⟩ := Prod.mk.inj h
        . next hout => exact .outside op b v hop.1 hop.2 hbig hout
        . next hout => exact .write op b v hop.1 hop.2 hbig (by omega)
    . simp at h
  . next op =>
    split at h
    . next hop =>
      rw [Option.some.injEq] at h
      unfold end_op at h
      dsimp only at h
      split at h
      . next hc =>
        obtain ⟨rfl, rfl⟩ := Prod.mk.inj h
        exact .endPanic op hop.1 hop.2 hc
      . next hc =>
        split at h <;> obtain ⟨rfl, rfl⟩ := Prod.mk.inj h
        . next hzero => exact .endCommit op hop.1 hop.2 (by simpa using hc) hzero
        . next hzero => exact .endOp op hop.1 hop.2 (by simpa using hc) hzero
    . simp at h
  . rw [Option.map_eq_some_iff] at h
    obtain ⟨t, ht, heq⟩ := h
    obtain ⟨rfl, rfl⟩ := Prod.mk.inj heq
    exact advance_cases ht
  . rw [Option.some.injEq] at h
    obtain ⟨rfl, rfl⟩ := Prod.mk.inj h
    exact .crash

end State

end Xv6.Log
