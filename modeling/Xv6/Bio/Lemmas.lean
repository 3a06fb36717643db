import Mathlib.Data.Fintype.Card
import Xv6.Bio.Impl

/-!
What a step of the buffer cache can do, as long as the list through `bcache.head` is in order.
-/

namespace Xv6.Bio

namespace State

variable {ι β : Type}

-- The list through `bcache.head` is doubly linked and has all buffers on it, each once.
def Linked (s : State ι β) : Prop :=
  ∃ l, s.links.IsList l ∧ l.Perm (List.finRange NBUF)

def caches (s : State ι β) (b : Fin NBUF) (k : Nat) : Prop :=
  (s.buf b).dev = ROOTDEV ∧ (s.buf b).blockno = k

@[simp]
theorem setBuf_buf (s : State ι β) (b c : Fin NBUF) (x : Buf ι β)
    : (s.setBuf b x).buf c = if c = b then x else s.buf c :=
  Function.update_apply s.buf b x c

@[simp]
theorem setBuf_pc (s : State ι β) (b : Fin NBUF) (x : Buf ι β) : (s.setBuf b x).pc = s.pc := rfl

@[simp]
theorem setBuf_disk (s : State ι β) (b : Fin NBUF) (x : Buf ι β) : (s.setBuf b x).disk = s.disk := rfl

@[simp]
theorem setBuf_links (s : State ι β) (b : Fin NBUF) (x : Buf ι β) : (s.setBuf b x).links = s.links := rfl

@[simp]
theorem setBuf_halted (s : State ι β) (b : Fin NBUF) (x : Buf ι β) : (s.setBuf b x).halted = s.halted := rfl

-- The two things that `iderw` does.
def flushed (s : State ι β) (b : Fin NBUF) : State ι β :=
  { s.setBuf b { s.buf b with valid := true, dirty := false } with
    disk := Function.update s.disk (s.buf b).blockno (s.buf b).data }

def fetched (s : State ι β) (b : Fin NBUF) : State ι β :=
  s.setBuf b { s.buf b with valid := true, data := s.disk (s.buf b).blockno }

theorem iderw_cases {s : State ι β} {b : Fin NBUF} (h : (s.iderw b).2 = true)
    : (s.buf b).dirty = true ∧ (s.iderw b).1 = s.flushed b ∨
      (s.buf b).dirty = false ∧ (s.buf b).valid = false ∧ (s.iderw b).1 = s.fetched b := by
  unfold iderw at h ⊢
  dsimp only at h ⊢
  split
  . next hd => exact .inl ⟨hd, rfl⟩
  . next hd =>
    rw [if_neg hd] at h
    split
    . next hv => simp [hv] at h
    . next hv => exact .inr ⟨by simpa using hd, by simpa using hv, rfl⟩

@[simp]
theorem flushed_buf (s : State ι β) (b c : Fin NBUF)
    : (s.flushed b).buf c = if c = b then { s.buf b with valid := true, dirty := false } else s.buf c :=
  setBuf_buf s b c _

@[simp]
theorem flushed_pc (s : State ι β) (b : Fin NBUF) : (s.flushed b).pc = s.pc := rfl

@[simp]
theorem flushed_disk (s : State ι β) (b : Fin NBUF) (k : Nat)
    : (s.flushed b).disk k = if k = (s.buf b).blockno then (s.buf b).data else s.disk k :=
  Function.update_apply s.disk _ _ k

@[simp]
theorem flushed_halted (s : State ι β) (b : Fin NBUF) : (s.flushed b).halted = s.halted := rfl

@[simp]
theorem fetched_buf (s : State ι β) (b c : Fin NBUF)
    : (s.fetched b).buf c =
      if c = b then { s.buf b with valid := true, data := s.disk (s.buf b).blockno } else s.buf c :=
  setBuf_buf s b c _

@[simp]
theorem fetched_pc (s : State ι β) (b : Fin NBUF) : (s.fetched b).pc = s.pc := rfl

@[simp]
theorem fetched_disk (s : State ι β) (b : Fin NBUF) : (s.fetched b).disk = s.disk := rfl

@[simp]
theorem fetched_halted (s : State ι β) (b : Fin NBUF) : (s.fetched b).halted = s.halted := rfl

@[simp]
theorem unref_buf (s : State ι β) (b c : Fin NBUF)
    : (s.unref b).buf c = if c = b then { s.buf b with refcnt := (s.buf b).refcnt - 1 } else s.buf c := by
  simp only [unref]
  split <;> exact setBuf_buf s b c _

@[simp]
theorem unref_pc (s : State ι β) (b : Fin NBUF) : (s.unref b).pc = s.pc := by
  simp only [unref]
  split <;> rfl

@[simp]
theorem unref_disk (s : State ι β) (b : Fin NBUF) : (s.unref b).disk = s.disk := by
  simp only [unref]
  split <;> rfl

@[simp]
theorem unref_halted (s : State ι β) (b : Fin NBUF) : (s.unref b).halted = s.halted := by
  simp only [unref]
  split <;> rfl

variable [DecidableEq ι]

@[simp]
theorem setPc_pc (s : State ι β) (p q : ι) (pc : Pc) : (s.setPc p pc).pc q = if q = p then pc else s.pc q :=
  Function.update_apply s.pc p pc q

@[simp]
theorem setPc_buf (s : State ι β) (p : ι) (pc : Pc) : (s.setPc p pc).buf = s.buf := rfl

@[simp]
theorem setPc_disk (s : State ι β) (p : ι) (pc : Pc) : (s.setPc p pc).disk = s.disk := rfl

@[simp]
theorem setPc_links (s : State ι β) (p : ι) (pc : Pc) : (s.setPc p pc).links = s.links := rfl

@[simp]
theorem setPc_halted (s : State ι β) (p : ι) (pc : Pc) : (s.setPc p pc).halted = s.halted := rfl

inductive Step (s : State ι β) : Event ι β → Output β → State ι β → Prop where
  | hit (p : ι) (k : Nat) (b : Fin NBUF) : s.pc p = .idle → s.caches b k →
      Step s (.bread p k) .none
        ((s.setBuf b { s.buf b with refcnt := (s.buf b).refcnt + 1 }).setPc p (.acquire b k))
  | recycle (p : ι) (k : Nat) (b : Fin NBUF) : s.pc p = .idle → (∀ b, ¬ s.caches b k) → (s.buf b).refcnt = 0 →
      (s.buf b).dirty = false →
      Step s (.bread p k) .none
        ((s.setBuf b { s.buf b with
          dev := ROOTDEV
          blockno := k
          valid := false
          dirty := false
          refcnt := 1 }).setPc p (.acquire b k))
  | panic (e : Event ι β) (msg : String) : Step s e (.panic msg) { s with halted := true }
  | bwrite (p : ι) (b : Fin NBUF) : s.pc p = .idle → (s.buf b).lock = some p →
      Step s (.bwrite p b) .none ((s.setBuf b { s.buf b with dirty := true }).setPc p (.write b))
  | log_write (p : ι) (b : Fin NBUF) : s.pc p = .idle → (s.buf b).lock = some p →
      Step s (.log_write p b) .none (s.setBuf b { s.buf b with dirty := true })
  | brelse (p : ι) (b : Fin NBUF) : s.pc p = .idle → (s.buf b).lock = some p →
      Step s (.brelse p b) .none ((s.setBuf b { s.buf b with lock := none }).setPc p (.release b))
  | store (p : ι) (b : Fin NBUF) (v : β) : s.pc p = .idle → (s.buf b).lock = some p →
      Step s (.store p b v) .none (s.setBuf b { s.buf b with data := v })
  | acquire (p : ι) (b : Fin NBUF) (k : Nat) : s.pc p = .acquire b k → (s.buf b).lock = none →
      Step s (.step p) .none ((s.setBuf b { s.buf b with lock := some p }).setPc p (.check b k))
  | valid (p : ι) (b : Fin NBUF) (k : Nat) : s.pc p = .check b k → (s.buf b).valid = true →
      Step s (.step p) (.bread k b (s.buf b).data) (s.setPc p .idle)
  | invalid (p : ι) (b : Fin NBUF) (k : Nat) : s.pc p = .check b k → (s.buf b).valid = false →
      Step s (.step p) .none (s.setPc p (.read b k))
  | fetch (p : ι) (b : Fin NBUF) (k : Nat) : s.pc p = .read b k → (s.buf b).dirty = false →
      (s.buf b).valid = false →
      Step s (.step p) (.bread k b (s.disk (s.buf b).blockno)) ((s.fetched b).setPc p .idle)
  | flush (p : ι) (b : Fin NBUF) : s.pc p = .write b → (s.buf b).dirty = true →
      Step s (.step p) .none ((s.flushed b).setPc p .idle)
  -- `bread` of a buffer that waits to be written, and `bwrite` of one that does not
  | fetchDirty (p : ι) (b : Fin NBUF) (k : Nat) : s.pc p = .read b k → (s.buf b).dirty = true →
      Step s (.step p) (.bread k b (s.buf b).data) ((s.flushed b).setPc p .idle)
  | flushClean (p : ι) (b : Fin NBUF) : s.pc p = .write b → (s.buf b).dirty = false → (s.buf b).valid = false →
      Step s (.step p) .none ((s.fetched b).setPc p .idle)
  | release (p : ι) (b : Fin NBUF) : s.pc p = .release b →
      Step s (.step p) .none ((s.unref b).setPc p .idle)

variable {s s' : State ι β} {e : Event ι β} {o : Output β}

theorem Linked.length_le {l : List (Fin NBUF)} (hperm : l.Perm (List.finRange NBUF)) : l.length ≤ NBUF := by
  rw [hperm.length_eq, List.length_finRange]

theorem bget_cases {p : ι} {k : Nat} (hlist : s.Linked) (hp : s.pc p = .idle) (h : s.bget p k = some (s', o))
    : Step s (.bread p k) o s' := by
  obtain ⟨l, hl, hperm⟩ := hlist
  have hmem : ∀ b, b ∈ l := fun b => hperm.mem_iff.mpr (List.mem_finRange b)
  unfold bget at h
  have hprev : Links.find s.links.prev (fun b => (s.buf b).refcnt = 0 ∧ (s.buf b).dirty = false) NBUF
      (s.links.prev none) = some (l.reverse.find? fun b => (s.buf b).refcnt = 0 ∧ (s.buf b).dirty = false) :=
    hl.flip.find_next _ (by rw [List.length_reverse]; exact Linked.length_le hperm)
  rw [hl.find_next _ (Linked.length_le hperm), hprev] at h
  simp only [Option.bind_eq_bind, Option.bind_some, Option.pure_def] at h
  split at h
  . next b hb =>
    simp only [Option.some.injEq, Prod.mk.injEq] at h
    obtain ⟨rfl, rfl⟩ := h
    exact .hit p k b hp (by simpa [caches] using List.find?_some hb)
  . next hnone =>
    rw [List.find?_eq_none] at hnone
    have hmiss : ∀ b, ¬ s.caches b k := by
      intro b
      simpa [caches] using hnone b (hmem b)
    split at h
    . next b hb =>
      simp only [Option.some.injEq, Prod.mk.injEq] at h
      obtain ⟨rfl, rfl⟩ := h
      have hfree := List.find?_some hb
      simp only [decide_eq_true_eq] at hfree
      exact .recycle p k b hp hmiss hfree.1 hfree.2
    . simp only [State.panic, Option.some.injEq, Prod.mk.injEq] at h
      obtain ⟨rfl, rfl⟩ := h
      exact .panic _ _

theorem advance_cases {p : ι} (h : s.advance p = some (s', o)) : Step s (.step p) o s' := by
  unfold advance at h
  split at h
  . simp at h
  . next b k hp =>
    split at h
    . next hlock =>
      simp only [Option.some.injEq, Prod.mk.injEq] at h
      obtain ⟨rfl, rfl⟩ := h
      exact .acquire p b k hp hlock
    . simp at h
  . next b k hp =>
    split at h <;> simp only [Option.some.injEq, Prod.mk.injEq] at h <;> obtain ⟨rfl, rfl⟩ := h
    . next hv => exact .valid p b k hp hv
    . next hv => exact .invalid p b k hp (by simpa using hv)
  . next b k hp =>
    dsimp only at h
    split at h <;> simp only [State.panic, Option.some.injEq, Prod.mk.injEq] at h <;> obtain ⟨rfl, rfl⟩ := h
    . next hr =>
      rcases iderw_cases hr with ⟨hd, heq⟩ | ⟨hd, hv, heq⟩
      . have hdata : ((s.flushed b).buf b).data = (s.buf b).data := by simp
        rw [heq, hdata]
        exact .fetchDirty p b k hp hd
      . have hdata : ((s.fetched b).buf b).data = s.disk (s.buf b).blockno := by simp
        rw [heq, hdata]
        exact .fetch p b k hp hd hv
    . exact .panic _ _
  . next b hp =>
    dsimp only at h
    split at h <;> simp only [State.panic, Option.some.injEq, Prod.mk.injEq] at h <;> obtain ⟨rfl, rfl⟩ := h
    . next hr =>
      rcases iderw_cases hr with ⟨hd, heq⟩ | ⟨hd, hv, heq⟩
      . rw [heq]
        exact .flush p b hp hd
      . rw [heq]
        exact .flushClean p b hp hd hv
    . exact .panic _ _
  . next b hp =>
    simp only [Option.some.injEq, Prod.mk.injEq] at h
    obtain ⟨rfl, rfl⟩ := h
    exact .release p b hp

theorem step_cases (hlist : s.Linked) (h : step s e = some (s', o)) : Step s e o s' := by
  unfold step at h
  split at h
  . simp at h
  . split at h
    . next p k =>
      split at h
      . next hp => exact bget_cases hlist hp h
      . simp at h
    . next p b =>
      split at h
      . next hp =>
        rw [Option.some.injEq, State.bwrite] at h
        split at h <;> simp only [State.panic, Prod.mk.injEq] at h <;> obtain ⟨rfl, rfl⟩ := h
        . exact .panic _ _
        . next hlock => exact .bwrite p b hp (by simpa using hlock)
      . simp at h
    . next p b =>
      split at h
      . next hp =>
        simp only [Option.some.injEq, Prod.mk.injEq] at h
        obtain ⟨rfl, rfl⟩ := h
        exact .log_write p b hp.1 hp.2
      . simp at h
    . next p b =>
      split at h
      . next hp =>
        rw [Option.some.injEq, State.brelse] at h
        split at h <;> simp only [State.panic, Prod.mk.injEq] at h <;> obtain ⟨rfl, rfl⟩ := h
        . exact .panic _ _
        . next hlock => exact .brelse p b hp (by simpa using hlock)
      . simp at h
    . next p b v =>
      split at h
      . next hp =>
        simp only [Option.some.injEq, Prod.mk.injEq] at h
        obtain ⟨rfl, rfl⟩ := h
        exact .store p b v hp.1 hp.2
      . simp at h
    . next p => exact advance_cases h

theorem step_linked (hlist : s.Linked) (h : step s e = some (s', o)) : s'.Linked := by
  have hkeep : ∀ t : State ι β, t.links = s.links → t.Linked := by
    intro t ht
    unfold Linked
    rw [ht]
    exact hlist
  cases step_cases hlist h with
  | release p b hp =>
    obtain ⟨l, hl, hperm⟩ := hlist
    have hmem : b ∈ l := hperm.mem_iff.mpr (List.mem_finRange b)
    simp only [unref]
    split
    . exact ⟨b :: l.erase b, hl.touch hmem, (List.perm_cons_erase hmem).symm.trans hperm⟩
    . exact hkeep _ rfl
  | _ => exact hkeep _ rfl

omit [DecidableEq ι] in
theorem binit_linked (zero : β) (disk : Nat → β) : (binit zero disk : State ι β).Linked := by
  -- the buffers in front are those of the rounds so far, in reverse
  have key : ∀ (l : List (Fin NBUF)) (r : Links (Fin NBUF)) (l' : List (Fin NBUF)), r.IsList l' → (l' ++ l).Nodup →
      (l.foldl (fun r b => r.insert (some b)) r).IsList (l.reverse ++ l') := by
    intro l
    induction l with
    | nil => exact fun r l' hr _ => hr
    | cons b l ih =>
      intro r l' hr hnodup
      rw [List.foldl_cons, List.reverse_cons, List.append_assoc]
      have := List.nodup_middle.mp hnodup
      apply ih
      . apply hr.insert
        intro hmem
        exact (List.nodup_cons.mp this).1 (List.mem_append_left l hmem)
      . exact this
  refine ⟨(List.finRange NBUF).reverse ++ [], ?_, ?_⟩
  . exact key _ _ _ Links.empty_isList (List.nodup_finRange NBUF)
  . rw [List.append_nil]
    exact List.reverse_perm _

end State

end Xv6.Bio
