import Mathlib.Data.Fintype.Basic
import Xv6.Bio.Lemmas
import Xv6.Lib.Pool

/-!
The buffer cache and the disk behave as one array of blocks. Its contents are kept in a history beside the machine:
what `bwrite` and `log_write` have recorded last for each block.
-/

namespace Xv6.Bio

variable {ι β : Type}

structure History (β : Type) where
  -- the array of blocks
  flat : Nat → β
  -- the buffers that have been changed and not recorded since
  changed : Fin NBUF → Bool

def History.record (h : History β) (b : Fin NBUF) (k : Nat) (v : β) : History β where
  flat := Function.update h.flat k v
  changed := Function.update h.changed b false

def observe (s : State ι β) (e : Event ι β) (s' : State ι β) (h : History β) : History β :=
  if s'.halted then h
  else
    match e with
    | .bwrite _ b => h.record b (s.buf b).blockno (s.buf b).data
    | .log_write _ b => h.record b (s.buf b).blockno (s.buf b).data
    | .store _ b _ => { h with changed := Function.update h.changed b true }
    | _ => h

-- The buffer for which the process is counted in `refcnt` without holding it.
def Pc.wants : Pc → Option (Fin NBUF)
  | .acquire b _ => some b
  | .release b => some b
  | _ => none

-- The buffer that `bread` or `bwrite` holds.
def Pc.uses : Pc → Option (Fin NBUF)
  | .check b _ => some b
  | .read b _ => some b
  | .write b => some b
  | _ => none

-- The block that `bread` has been asked for.
def Pc.asks : Pc → Option (Fin NBUF × Nat)
  | .acquire b k => some (b, k)
  | .check b k => some (b, k)
  | .read b k => some (b, k)
  | _ => none

namespace State

variable {s s' : State ι β} {e : Event ι β} {o : Output β} {h : History β} {p : ι} {b : Fin NBUF} {k : Nat}

section

variable [DecidableEq ι]

-- A buffer that is in use or waits to be written keeps its block.
def Pinned (s s' : State ι β) : Prop :=
  ∀ b, 0 < (s.buf b).refcnt ∨ (s.buf b).dirty = true →
    (s'.buf b).dev = (s.buf b).dev ∧ (s'.buf b).blockno = (s.buf b).blockno

theorem step_pinned (hs : Step s e o s') : Pinned s s' := by
  intro b hb
  cases hs <;> simp [caches] at * <;> grind

theorem wants_setPc (s : State ι β) (p : ι) (pc : Pc)
    : (fun q => ((s.setPc p pc).pc q).wants) = Function.update (fun q => (s.pc q).wants) p pc.wants := by
  funext q
  simp only [setPc, Function.update_apply]
  split <;> rfl

theorem wants_setPc_eq {pc : Pc} (hp : (s.pc p).wants = pc.wants)
    : (fun q => ((s.setPc p pc).pc q).wants) = fun q => (s.pc q).wants := by
  rw [wants_setPc, ← hp]
  exact Function.update_eq_self p fun q => (s.pc q).wants

end

variable [Fintype ι]

structure Inv (x : State ι β × History β) : Prop where
  linked : x.1.Linked
  unique : ∀ b b' k, x.1.caches b k → x.1.caches b' k → b = b'
  ref : ∀ b, (x.1.buf b).refcnt =
    (Pool.cells (fun p => (x.1.pc p).wants) Finset.univ).count b + if (x.1.buf b).lock = none then 0 else 1
  root : ∀ b, 0 < (x.1.buf b).refcnt → (x.1.buf b).dev = ROOTDEV
  asked : ∀ p b k, (x.1.pc p).asks = some (b, k) → (x.1.buf b).blockno = k
  held : ∀ p b, (x.1.pc p).uses = some b → (x.1.buf b).lock = some p ∧ x.2.changed b = false
  free : ∀ b, (x.1.buf b).lock = none → x.2.changed b = false
  valid : ∀ b p, (x.1.buf b).lock = some p → (x.1.buf b).valid = true ∨ (x.1.pc p).uses = some b
  reads : ∀ p b k, x.1.pc p = .read b k → (x.1.buf b).valid = false
  writes : ∀ p b, x.1.pc p = .write b → (x.1.buf b).dirty = true
  dirty : ∀ b, (x.1.buf b).dirty = true → (x.1.buf b).valid = true
  data : ∀ b k, x.1.caches b k → (x.1.buf b).valid = true → x.2.changed b = false → (x.1.buf b).data = x.2.flat k
  clean : ∀ b k, x.1.caches b k → (x.1.buf b).dirty = false → x.1.disk k = x.2.flat k
  absent : ∀ k, (∀ b, ¬ x.1.caches b k) → x.1.disk k = x.2.flat k

theorem refcnt_pos_of_lock (hx : Inv (s, h)) (hlock : (s.buf b).lock ≠ none) : 0 < (s.buf b).refcnt := by
  have := hx.ref b
  rw [if_neg hlock] at this
  dsimp only at this
  omega

theorem refcnt_pos_of_wants (hx : Inv (s, h)) (hp : (s.pc p).wants = some b) : 0 < (s.buf b).refcnt := by
  have hmem : b ∈ Pool.cells (fun p => (s.pc p).wants) Finset.univ := Pool.mem_cells_of (Finset.mem_univ p) hp
  have := hx.ref b
  have := Multiset.count_pos.mpr hmem
  dsimp only at *
  omega

theorem refcnt_pos_of_asks (hx : Inv (s, h)) (hp : (s.pc p).asks = some (b, k)) : 0 < (s.buf b).refcnt := by
  cases hpc : s.pc p <;> simp only [hpc, Pc.asks, Option.some.injEq, Prod.mk.injEq, reduceCtorEq] at hp
  . exact refcnt_pos_of_wants hx (p := p) (by simp [hpc, Pc.wants, hp])
  . have := (hx.held p b (by simp [hpc, Pc.uses, hp])).1
    exact refcnt_pos_of_lock hx (by simp_all)
  . have := (hx.held p b (by simp [hpc, Pc.uses, hp])).1
    exact refcnt_pos_of_lock hx (by simp_all)

theorem root_of_lock (hx : Inv (s, h)) (hlock : (s.buf b).lock ≠ none) : (s.buf b).dev = ROOTDEV :=
  hx.root b (refcnt_pos_of_lock hx hlock)

theorem root_of_uses (hx : Inv (s, h)) (hp : (s.pc p).uses = some b) : (s.buf b).dev = ROOTDEV := by
  have hlock : (s.buf b).lock = some p := (hx.held p b hp).1
  exact root_of_lock hx (by simp [hlock])

theorem binit_inv (zero : β) (disk : Nat → β)
    : Inv ((binit zero disk : State ι β), { flat := disk, changed := fun _ => false }) where
  linked := binit_linked zero disk
  unique b b' k hb := by simp [caches, binit, ROOTDEV] at hb
  ref b := by
    have : Pool.cells (fun p => ((binit zero disk : State ι β).pc p).wants) Finset.univ = 0 := by
      apply Multiset.eq_zero_of_forall_notMem
      intro c hc
      rw [Pool.mem_cells] at hc
      simp [binit, Pc.wants] at hc
    rw [this]
    rfl
  root b hb := by simp [binit] at hb
  asked p b k hp := by simp [binit, Pc.asks] at hp
  held p b hp := by simp [binit, Pc.uses] at hp
  free b _ := rfl
  valid b p hp := by simp [binit] at hp
  reads p b k hp := by simp [binit] at hp
  writes p b hp := by simp [binit] at hp
  dirty b hb := by simp [binit] at hb
  data b k hb := by simp [caches, binit, ROOTDEV] at hb
  clean b k hb := by simp [caches, binit, ROOTDEV] at hb
  absent k _ := rfl

variable [DecidableEq ι]

theorem count_wants_add (hp : (s.pc p).wants = none) {pc : Pc} (hpc : pc.wants = some b) (c : Fin NBUF)
    : (Pool.cells (fun q => ((s.setPc p pc).pc q).wants) Finset.univ).count c =
      (Pool.cells (fun q => (s.pc q).wants) Finset.univ).count c + if c = b then 1 else 0 := by
  rw [wants_setPc, hpc, Pool.cells_add (f := fun q => (s.pc q).wants) (Finset.mem_univ p) hp, Multiset.count_add,
    Multiset.count_singleton]

theorem count_wants_remove (pc : Pc) (hp : (s.pc p).wants = some b) (hpc : pc.wants = none) (c : Fin NBUF)
    : (Pool.cells (fun q => ((s.setPc p pc).pc q).wants) Finset.univ).count c + (if c = b then 1 else 0) =
      (Pool.cells (fun q => (s.pc q).wants) Finset.univ).count c := by
  rw [wants_setPc, hpc, ← Pool.cells_remove (f := fun q => (s.pc q).wants) (Finset.mem_univ p) hp,
    Multiset.count_add, Multiset.count_singleton]

-- Each field of `Inv` across a step. What changes is one buffer and the place of one process.
section

variable (hx : Inv (s, h)) (hs : Step s e o s')

include hx hs

theorem step_unique : ∀ b b' k, s'.caches b k → s'.caches b' k → b = b' := by
  intro b b' k
  have := hx.unique b b' k
  cases hs <;> simp [caches] at * <;> grind

theorem step_root : ∀ b, 0 < (s'.buf b).refcnt → (s'.buf b).dev = ROOTDEV := by
  intro b
  have := hx.root b
  cases hs <;> simp [caches] at * <;> grind

theorem step_asked : ∀ p b k, (s'.pc p).asks = some (b, k) → (s'.buf b).blockno = k := by
  intro p b k
  have := hx.asked p b k
  -- a buffer that somebody asks for is not recycled
  have := refcnt_pos_of_asks hx (p := p) (b := b) (k := k)
  cases hs <;> simp [caches] at * <;> grind [Pc.asks]

theorem step_valid : ∀ b p, (s'.buf b).lock = some p → (s'.buf b).valid = true ∨ (s'.pc p).uses = some b := by
  intro b p
  have := hx.valid b p
  have := refcnt_pos_of_lock hx (b := b)
  cases hs <;> simp [caches] at * <;> grind [Pc.uses]

theorem step_reads : ∀ p b k, s'.pc p = .read b k → (s'.buf b).valid = false := by
  intro p b k
  have := hx.reads p b k
  -- the buffer is locked, so no other process transfers it
  have hheld := fun q => hx.held q b
  cases hs <;> simp [caches] at * <;> grind [Pc.uses]

theorem step_writes : ∀ p b, s'.pc p = .write b → (s'.buf b).dirty = true := by
  intro p b
  have := hx.writes p b
  have hheld := fun q => hx.held q b
  have := refcnt_pos_of_lock hx (b := b)
  cases hs <;> simp [caches] at * <;> grind [Pc.uses]

theorem step_dirty : ∀ b, (s'.buf b).dirty = true → (s'.buf b).valid = true := by
  intro b
  have := hx.dirty b
  have := hx.valid b
  cases hs <;> simp [caches] at * <;> grind [Pc.uses]

theorem step_ref : ∀ b, (s'.buf b).refcnt =
    (Pool.cells (fun p => (s'.pc p).wants) Finset.univ).count b + if (s'.buf b).lock = none then 0 else 1 := by
  intro c
  have hc := hx.ref c
  dsimp only at hc
  cases hs with
  | hit p k b hp hk =>
    rw [count_wants_add (b := b) (by simp [hp, Pc.wants]) rfl]
    simp only [setPc_buf, setBuf_buf, setBuf_pc]
    grind
  | recycle p k b hp hk href =>
    rw [count_wants_add (b := b) (by simp [hp, Pc.wants]) rfl]
    simp only [setPc_buf, setBuf_buf, setBuf_pc]
    grind
  | panic => exact hc
  | bwrite p b hp =>
    rw [wants_setPc_eq (by simp [hp, Pc.wants])]
    simp only [setPc_buf, setBuf_buf, setBuf_pc]
    grind
  | log_write p b =>
    simp only [setBuf_buf, setBuf_pc]
    grind
  | brelse p b hp hlock =>
    rw [count_wants_add (b := b) (by simp [hp, Pc.wants]) rfl]
    simp only [setPc_buf, setBuf_buf, setBuf_pc]
    grind
  | store p b v =>
    simp only [setBuf_buf, setBuf_pc]
    grind
  | acquire p b k hp hlock =>
    have := count_wants_remove (p := p) (s := s) (b := b) (.check b k) (by simp [hp, Pc.wants]) rfl c
    simp only [setPc_buf, setBuf_buf]
    grind [setPc, setBuf]
  | valid p b k hp =>
    rw [wants_setPc_eq (by simp [hp, Pc.wants])]
    exact hc
  | invalid p b k hp =>
    rw [wants_setPc_eq (by simp [hp, Pc.wants])]
    exact hc
  | fetch p b k hp =>
    rw [wants_setPc_eq (by simp [hp, Pc.wants])]
    simp only [setPc_buf, fetched_buf, fetched_pc]
    grind
  | flush p b hp =>
    rw [wants_setPc_eq (by simp [hp, Pc.wants])]
    simp only [setPc_buf, flushed_buf, flushed_pc]
    grind
  | fetchDirty p b k hp =>
    rw [wants_setPc_eq (by simp [hp, Pc.wants])]
    simp only [setPc_buf, flushed_buf, flushed_pc]
    grind
  | flushClean p b hp =>
    rw [wants_setPc_eq (by simp [hp, Pc.wants])]
    simp only [setPc_buf, fetched_buf, fetched_pc]
    grind
  | release p b hp =>
    have := count_wants_remove (p := p) (s := s.unref b) (b := b) .idle (by simp [hp, Pc.wants]) rfl c
    simp only [setPc_buf, unref_buf, unref_pc] at this ⊢
    grind

end

-- A process gives a buffer back as it has been recorded.
def Recorded (x : State ι β × History β) (e : Event ι β) : Prop :=
  match e with
  | .brelse _ b => x.2.changed b = false
  | _ => True

section

variable (hx : Inv (s, h)) (hs : Step s e o s') (hrun : s.halted = false) (hrec : Recorded (s, h) e)

include hx hs hrun hrec

theorem step_held : ∀ p b, (s'.pc p).uses = some b →
    (s'.buf b).lock = some p ∧ (observe s e s' h).changed b = false := by
  intro p b
  have hheld := fun q => hx.held q b
  have := hx.free b
  cases hs <;> simp [observe, History.record, Function.update_apply, hrun] at * <;> grind [Pc.uses]

theorem step_free : ∀ b, (s'.buf b).lock = none → (observe s e s' h).changed b = false := by
  intro b
  have := hx.free b
  cases hs <;> simp [observe, History.record, Recorded, Function.update_apply, hrun] at * <;> grind

theorem step_data : ∀ b k, s'.caches b k → (s'.buf b).valid = true → (observe s e s' h).changed b = false →
    (s'.buf b).data = (observe s e s' h).flat k := by
  intro b k
  have := hx.data b k
  have := hx.clean b k
  have := hx.dirty b
  have hunique := fun b' => hx.unique b b' k
  have hroot := fun b' => root_of_lock hx (b := b')
  cases hs <;> simp [caches, observe, History.record, Function.update_apply, hrun] at * <;> grind

theorem step_clean : ∀ b k, s'.caches b k → (s'.buf b).dirty = false → s'.disk k = (observe s e s' h).flat k := by
  intro b k
  have := hx.clean b k
  have := hx.absent k
  have := hx.data b k
  have := hx.dirty b
  have hunique := fun b' => hx.unique b b' k
  have hroot := fun b' => root_of_lock hx (b := b')
  have hheld := fun q b' => hx.held q b'
  cases hs <;> simp [caches, observe, History.record, Function.update_apply, hrun] at * <;> grind [Pc.uses]

theorem step_absent : ∀ k, (∀ b, ¬ s'.caches b k) → s'.disk k = (observe s e s' h).flat k := by
  intro k hk
  have := hx.absent k
  have hclean := fun b => hx.clean b k
  have hroot := fun b' => root_of_lock hx (b := b')
  -- a transfer is for a block that is in the cache
  have huses : ∀ p b, (s.pc p).uses = some b → ¬ s'.caches b k → (s'.buf b).dev = (s.buf b).dev →
      (s'.buf b).blockno = (s.buf b).blockno → (s.buf b).blockno ≠ k := by
    intro p b hp hmiss hdev hblockno heq
    exact hmiss ⟨hdev.trans (root_of_uses hx hp), hblockno.trans heq⟩
  cases hs with
  | flush p b hp =>
    have := huses p b (by simp [hp, Pc.uses]) (hk b) (by simp) (by simp)
    simp [caches, observe, hrun] at *
    grind
  | fetchDirty p b k hp =>
    have := huses p b (by simp [hp, Pc.uses]) (hk b) (by simp) (by simp)
    simp [caches, observe, hrun] at *
    grind
  | _ =>
    simp [caches, observe, History.record, Function.update_apply, hrun] at *
    grind

end

theorem step_inv {x x' : State ι β × History β} (hx : Inv x)
    (hstep : Machine.watch step observe x e = some (x', o)) (hrec : Recorded x e)
    : Inv x' := by
  obtain ⟨hs, hh⟩ := Machine.watch_eq_some hstep
  obtain ⟨s, h⟩ := x
  obtain ⟨s', h'⟩ := x'
  dsimp only at hs hh
  subst hh
  have hc := step_cases hx.linked hs
  have hrun : s.halted = false := by
    by_contra hhalt
    simp [step, hhalt] at hs
  exact {
    linked := step_linked hx.linked hs
    unique := step_unique hx hc
    ref := step_ref hx hc
    root := step_root hx hc
    asked := step_asked hx hc
    held := step_held hx hc hrun hrec
    free := step_free hx hc hrun hrec
    valid := step_valid hx hc
    reads := step_reads hx hc
    writes := step_writes hx hc
    dirty := step_dirty hx hc
    data := step_data hx hc hrun hrec
    clean := step_clean hx hc hrun hrec
    absent := step_absent hx hc hrun hrec }

-- The list is in order, and no block is in two buffers.
def InOrder (x : State ι β × History β) : Prop :=
  x.1.Linked ∧ ∀ b b' k, x.1.caches b k → x.1.caches b' k → b = b'

-- `bread` returns what the array of blocks holds.
def ReadsFlat (x : State ι β × History β) (o : Output β) (x' : State ι β × History β) : Prop :=
  ∀ k b v, o = .bread k b v → v = x.2.flat k ∧ x'.1.caches b k ∧ (x'.1.buf b).data = v

theorem step_reads_flat (hx : Inv (s, h)) (hs : Step s e o s') : ReadsFlat (s, h) o (s', observe s e s' h) := by
  intro k b v ho
  cases hs with
  | valid p b' k' hp hv =>
    obtain ⟨rfl, rfl, rfl⟩ := Output.bread.inj ho
    have hheld := hx.held p b' (by simp [hp, Pc.uses])
    have hcaches : s.caches b' k' := ⟨root_of_uses hx (p := p) (by simp [hp, Pc.uses]), hx.asked p b' k' (by simp [hp, Pc.asks])⟩
    exact ⟨hx.data b' k' hcaches hv hheld.2, hcaches, rfl⟩
  | fetch p b' k' hp hd =>
    obtain ⟨rfl, rfl, rfl⟩ := Output.bread.inj ho
    have hcaches : s.caches b' k' := ⟨root_of_uses hx (p := p) (by simp [hp, Pc.uses]), hx.asked p b' k' (by simp [hp, Pc.asks])⟩
    have hclean : s.disk k' = h.flat k' := hx.clean b' k' hcaches hd
    refine ⟨?_, ?_, ?_⟩
    . rw [hcaches.2, hclean]
    . simpa [caches] using hcaches
    . simp
  | fetchDirty p b' k' hp hd =>
    -- a buffer that is being read has no data to write
    have hv : (s.buf b').valid = false := hx.reads p b' k' hp
    have : (s.buf b').valid = true := hx.dirty b' hd
    simp [hv] at this
  | _ => simp at ho

/--
The buffer cache refines an array of blocks, for processes that record what they change before they give the buffer
back.
-/
theorem bcache_refines_flat (zero : β) (disk : Nat → β) (es : List (Event ι β))
    (hes : Machine.Along (Machine.watch step observe) (fun x e _ _ => Recorded x e)
      (binit zero disk, { flat := disk, changed := fun _ => false }) es)
    : Machine.Always (Machine.watch step observe) InOrder
        (binit zero disk, { flat := disk, changed := fun _ => false }) es ∧
      Machine.Along (Machine.watch step observe) (fun x _ o x' => Pinned x.1 x'.1 ∧ ReadsFlat x o x')
        (binit zero disk, { flat := disk, changed := fun _ => false }) es := by
  have hinit := binit_inv (ι := ι) zero disk
  refine ⟨⟨⟨hinit.linked, hinit.unique⟩, ?_⟩, ?_⟩
  . apply Machine.along_of_invariant (I := Inv) _ hinit hes
    intro x e o x' hx hstep hrec
    have hx' := step_inv hx hstep hrec
    exact ⟨⟨hx'.linked, hx'.unique⟩, hx'⟩
  . apply Machine.along_of_invariant (I := Inv) _ hinit hes
    intro x e o x' hx hstep hrec
    obtain ⟨hs, hh⟩ := Machine.watch_eq_some hstep
    have hc := step_cases hx.linked hs
    refine ⟨⟨step_pinned hc, ?_⟩, step_inv hx hstep hrec⟩
    have := step_reads_flat hx hc
    rw [← hh] at this
    exact this

instance (x : State ι β × History β) : (e : Event ι β) → Decidable (Recorded x e)
  | .brelse _ b => inferInstanceAs (Decidable (x.2.changed b = false))
  | .bread _ _ | .bwrite _ _ | .log_write _ _ | .store _ _ _ | .step _ => .isTrue trivial

-- One process logs a change to a block, the other one reads it.
def logThenRead : List (Event Bool Nat) :=
  [.bread true 5, .step true, .step true, .step true, .store true 0 7, .log_write true 0, .brelse true 0, .step true,
    .bread false 5, .step false, .step false]

theorem bcache_refines_flat_logThenRead
    : Machine.outputs (step (ι := Bool)) (binit 0 fun _ => 3) logThenRead =
        [.none, .none, .none, .bread 5 0 3, .none, .none, .none, .none, .none, .none, .bread 5 0 7] ∧
      Machine.Always (Machine.watch step observe) InOrder
        ((binit 0 fun _ => 3 : State Bool Nat), { flat := fun _ => 3, changed := fun _ => false }) logThenRead :=
  ⟨by decide +kernel, (bcache_refines_flat 0 (fun _ => 3) logThenRead (by decide +kernel)).1⟩

end State

end Xv6.Bio
